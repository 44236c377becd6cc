import Mathlib.Data.List.Basic

/-!
Runs of a fallible step over a list of inputs. A step either stops the run with
an error or yields the next state and an answer. The run rules carry an
invariant and a list of expected answers through the induction once.
-/

namespace Fallible

variable {ε σ α β γ : Type}

@[simp] theorem ok_bind (a : α) (f : α → Except ε β) : (Except.ok a >>= f) = f a := rfl

@[simp] theorem error_bind (e : ε) (f : α → Except ε β) :
    ((Except.error e : Except ε α) >>= f) = .error e := rfl

@[simp] theorem pure_eq_ok (a : α) : (pure a : Except ε α) = .ok a := rfl

theorem bind_eq_ok {x : Except ε α} {f : α → Except ε β} {b : β} :
    (x >>= f) = .ok b ↔ ∃ a, x = .ok a ∧ f a = .ok b := by
  cases x <;> simp

theorem ok_of_toOption {x : Except ε α} {a : α} (h : x.toOption = some a) : x = .ok a := by
  cases x with
  | error e => cases h
  | ok b => exact congrArg Except.ok (Option.some.inj h)

theorem bind_assoc (x : Except ε α) (f : α → Except ε β) (g : β → Except ε γ) :
    (x >>= f) >>= g = x >>= fun a => f a >>= g := by
  cases x <;> rfl

theorem bind_congr {x : Except ε α} {f g : α → Except ε β} (h : ∀ a, x = .ok a → f a = g a) :
    (x >>= f) = (x >>= g) := by
  cases x with
  | error e => rfl
  | ok a => exact h a rfl

def Stops (E : ε → Prop) (x : Except ε α) : Prop := ∃ e, E e ∧ x = .error e

theorem Stops.bind {E : ε → Prop} {x : Except ε α} (h : Stops E x) (f : α → Except ε β) :
    Stops E (x >>= f) := by
  obtain ⟨e, he, rfl⟩ := h
  exact ⟨e, he, rfl⟩

theorem Stops.mono {E F : ε → Prop} {x : Except ε α} (h : Stops E x) (hEF : ∀ e, E e → F e) :
    Stops F x := by
  obtain ⟨e, he, rfl⟩ := h
  exact ⟨e, hEF e he, rfl⟩

theorem stops_bind {E : ε → Prop} {x : Except ε α} {f : α → Except ε β} :
    Stops E (x >>= f) ↔ Stops E x ∨ ∃ a, x = .ok a ∧ Stops E (f a) := by
  constructor
  · intro h
    cases x with
    | error e =>
      obtain ⟨e', he', heq⟩ := h
      cases heq
      exact Or.inl ⟨e, he', rfl⟩
    | ok a => exact Or.inr ⟨a, rfl, h⟩
  · rintro (h | ⟨a, rfl, h⟩)
    · exact h.bind f
    · exact h

theorem not_stops_ok {E : ε → Prop} (a : α) : ¬Stops E (Except.ok a : Except ε α) := by
  rintro ⟨e, -, he⟩
  cases he

def Agree (R : α → β → Prop) : Except ε α → Except ε β → Prop
  | .ok a, .ok b => R a b
  | .error e, .error e' => e = e'
  | _, _ => False

theorem agree_bind {δ : Type} {S : γ → δ → Prop} (x : Except ε α) {f : α → Except ε γ}
    {g : α → Except ε δ} (h : ∀ a, x = .ok a → Agree S (f a) (g a)) :
    Agree S (x >>= f) (x >>= g) := by
  cases x with
  | error e => rfl
  | ok a => exact h a rfl

theorem Agree.bind {δ : Type} {R : α → β → Prop} {S : γ → δ → Prop} {x : Except ε α}
    {y : Except ε β} {f : α → Except ε γ} {g : β → Except ε δ} (h : Agree R x y)
    (hfg : ∀ a b, R a b → Agree S (f a) (g b)) : Agree S (x >>= f) (y >>= g) := by
  cases x <;> cases y
  · exact h
  · exact h.elim
  · exact h.elim
  · exact hfg _ _ h

theorem Agree.mono {R S : α → β → Prop} {x : Except ε α} {y : Except ε β} (h : Agree R x y)
    (hRS : ∀ a b, R a b → S a b) : Agree S x y := by
  cases x <;> cases y
  · exact h
  · exact h.elim
  · exact h.elim
  · exact hRS _ _ h

theorem Agree.and_right {R : α → β → Prop} {P : β → Prop} {x : Except ε α} {y : Except ε β}
    (h : Agree R x y) (hP : ∀ b, y = .ok b → P b) : Agree (fun a b => R a b ∧ P b) x y := by
  cases x <;> cases y
  · exact h
  · exact h.elim
  · exact h.elim
  · exact ⟨h, hP _ rfl⟩

theorem Agree.ok_left {R : α → β → Prop} {a : α} {y : Except ε β}
    (h : Agree R (.ok a) y) : ∃ b, y = .ok b ∧ R a b := by
  cases y with
  | error e => exact h.elim
  | ok b => exact ⟨b, rfl, h⟩

theorem Agree.ok_right {R : α → β → Prop} {x : Except ε α} {b : β}
    (h : Agree R x (.ok b)) : ∃ a, x = .ok a ∧ R a b := by
  cases x with
  | error e => exact h.elim
  | ok a => exact ⟨a, rfl, h⟩

theorem Agree.error_right {R : α → β → Prop} {x : Except ε α} {e : ε}
    (h : Agree R x (.error e)) : x = .error e := by
  cases x with
  | error e' => exact congrArg Except.error h
  | ok a => exact h.elim

def AgreeUnless (E : ε → Prop) (R : α → β → Prop) (x : Except ε α) (y : Except ε β) : Prop :=
  Stops E x ∨ Agree R x y

section
variable {δ : Type} {E : ε → Prop} {R : α → β → Prop} {S : γ → δ → Prop}

theorem AgreeUnless.bind {x : Except ε α} {y : Except ε β} {f : α → Except ε γ}
    {g : β → Except ε δ} (h : AgreeUnless E R x y)
    (hfg : ∀ a b, R a b → AgreeUnless E S (f a) (g b)) :
    AgreeUnless E S (x >>= f) (y >>= g) := by
  rcases h with hstop | hagree
  · exact Or.inl (hstop.bind f)
  · cases x <;> cases y
    · exact Or.inr hagree
    · exact hagree.elim
    · exact hagree.elim
    · exact hfg _ _ hagree

theorem agreeUnless_bind (x : Except ε α) {f : α → Except ε γ} {g : α → Except ε δ}
    (h : ∀ a, AgreeUnless E S (f a) (g a)) : AgreeUnless E S (x >>= f) (x >>= g) := by
  cases x with
  | error e => exact Or.inr rfl
  | ok a => exact h a

theorem AgreeUnless.bind_left {S : γ → β → Prop} {x : Except ε α} {y : Except ε β}
    {f : α → Except ε γ} (h : AgreeUnless E R x y)
    (hf : ∀ a b, R a b → ∃ c, f a = .ok c ∧ S c b) : AgreeUnless E S (x >>= f) y := by
  rcases h with hstop | hagree
  · exact Or.inl (hstop.bind f)
  · cases x <;> cases y
    · exact Or.inr hagree
    · exact hagree.elim
    · exact hagree.elim
    · obtain ⟨c, hc, hS⟩ := hf _ _ hagree
      rw [ok_bind, hc]
      exact Or.inr hS

theorem AgreeUnless.bind_right {S : α → δ → Prop} {x : Except ε α} {y : Except ε β}
    {g : β → δ} (h : AgreeUnless E R x y) (hg : ∀ a b, R a b → S a (g b)) :
    AgreeUnless E S x (y >>= fun b => .ok (g b)) := by
  rcases h with hstop | hagree
  · exact Or.inl hstop
  · cases x <;> cases y
    · exact Or.inr hagree
    · exact hagree.elim
    · exact hagree.elim
    · exact Or.inr (hg _ _ hagree)

end

def writeAll (write : α → Except ε (List β)) : List α → Except ε (List β)
  | [] => .ok []
  | x :: xs => do
      let out ← write x
      let rest ← writeAll write xs
      pure (out ++ rest)

theorem writeAll_append (write : α → Except ε (List β)) (xs ys : List α) :
    writeAll write (xs ++ ys) =
      writeAll write xs >>= fun out => writeAll write ys >>= fun rest => .ok (out ++ rest) := by
  induction xs with
  | nil =>
    rw [List.nil_append, writeAll, ok_bind]
    cases writeAll write ys <;> rfl
  | cons x xs ih =>
    simp only [List.cons_append, writeAll, ih, bind_assoc, pure_eq_ok, ok_bind, List.append_assoc]

theorem writeAll_map (write : β → Except ε (List γ)) (f : α → β) (xs : List α) :
    writeAll write (xs.map f) = writeAll (fun x => write (f x)) xs := by
  induction xs with
  | nil => rfl
  | cons x xs ih => rw [List.map_cons, writeAll, writeAll, ih]

theorem writeAll_ok {write : α → Except ε (List β)} {text : α → List β} {xs : List α}
    (h : ∀ x ∈ xs, write x = .ok (text x)) : writeAll write xs = .ok (xs.flatMap text) := by
  induction xs with
  | nil => rfl
  | cons x xs ih =>
    rw [writeAll, h x (by simp), ih fun y hy => h y (by simp [hy])]
    rfl

theorem writeAll_isOk {write : α → Except ε (List β)} {xs : List α} :
    (∃ out, writeAll write xs = .ok out) ↔ ∀ x ∈ xs, ∃ out, write x = .ok out := by
  induction xs with
  | nil => exact iff_of_true ⟨[], rfl⟩ nofun
  | cons x xs ih =>
    rw [List.forall_mem_cons, ← ih]
    constructor
    · rintro ⟨out, h⟩
      obtain ⟨out₁, hx, h⟩ := bind_eq_ok.mp h
      obtain ⟨out₂, hxs, -⟩ := bind_eq_ok.mp h
      exact ⟨⟨out₁, hx⟩, out₂, hxs⟩
    · rintro ⟨⟨out₁, hx⟩, out₂, hxs⟩
      exact ⟨out₁ ++ out₂, by rw [writeAll, hx, ok_bind, hxs]; rfl⟩

theorem writeAll_eq_append {write : α → Except ε (List β)} {xs ys : List α} {out : List β}
    (h : writeAll write (xs ++ ys) = .ok out) :
    ∃ out₁ out₂, writeAll write xs = .ok out₁ ∧ writeAll write ys = .ok out₂ ∧
      out = out₁ ++ out₂ := by
  rw [writeAll_append] at h
  obtain ⟨out₁, hxs, h⟩ := bind_eq_ok.mp h
  obtain ⟨out₂, hys, h⟩ := bind_eq_ok.mp h
  exact ⟨out₁, out₂, hxs, hys, (Except.ok.inj h).symm⟩

theorem writeAll_eq_cons {write : α → Except ε (List β)} {x : α} {xs : List α} {out : List β}
    (h : writeAll write (x :: xs) = .ok out) :
    ∃ out₁ out₂, write x = .ok out₁ ∧ writeAll write xs = .ok out₂ ∧ out = out₁ ++ out₂ := by
  obtain ⟨out₁, hx, h⟩ := bind_eq_ok.mp h
  obtain ⟨out₂, hxs, h⟩ := bind_eq_ok.mp h
  exact ⟨out₁, out₂, hx, hxs, (Except.ok.inj h).symm⟩

theorem map_of_writeAll {write : α → Except ε (List β)} {f : β → γ} {g : α → List γ}
    (h : ∀ x out, write x = .ok out → out.map f = g x) {xs : List α} {out : List β}
    (hout : writeAll write xs = .ok out) : out.map f = xs.flatMap g := by
  induction xs generalizing out with
  | nil =>
    obtain rfl := Except.ok.inj hout
    rfl
  | cons x xs ih =>
    obtain ⟨out₁, out₂, hx, hxs, rfl⟩ := writeAll_eq_cons hout
    rw [List.map_append, h x out₁ hx, ih hxs, List.flatMap_cons]

theorem writeAll_error {write : α → Except ε (List β)} {e : ε} {xs : List α}
    (h : ∀ x ∈ xs, write x = .error e ∨ ∃ out, write x = .ok out)
    (hex : ∃ x ∈ xs, write x = .error e) : writeAll write xs = .error e := by
  induction xs with
  | nil =>
    obtain ⟨x, hx, -⟩ := hex
    cases hx
  | cons x xs ih =>
    rw [writeAll]
    rcases h x (by simp) with hx | ⟨out, hx⟩
    · rw [hx]
      rfl
    · obtain ⟨y, hy, he⟩ := hex
      rcases List.mem_cons.mp hy with rfl | hy
      · rw [hx] at he
        cases he
      · rw [hx, ok_bind, ih (fun z hz => h z (by simp [hz])) ⟨y, hy, he⟩]
        rfl

def run (step : σ → α → Except ε (σ × β)) : σ → List α → Except ε (σ × List β)
  | s, [] => .ok (s, [])
  | s, x :: xs => do
      let (s, y) ← step s x
      let (s, ys) ← run step s xs
      pure (s, y :: ys)

variable {step : σ → α → Except ε (σ × β)}

@[simp] theorem run_nil (s : σ) : run step s [] = .ok (s, []) := rfl

theorem run_cons (s : σ) (x : α) (xs : List α) :
    run step s (x :: xs) =
      step s x >>= fun p => run step p.1 xs >>= fun q => .ok (q.1, p.2 :: q.2) := rfl

theorem run_eq_cons {s s' : σ} {x : α} {xs : List α} {ys : List β}
    (h : run step s (x :: xs) = .ok (s', ys)) :
    ∃ t y zs, step s x = .ok (t, y) ∧ run step t xs = .ok (s', zs) ∧ ys = y :: zs := by
  rw [run_cons] at h
  obtain ⟨⟨t, y⟩, hstep, h⟩ := bind_eq_ok.mp h
  obtain ⟨⟨u, zs⟩, hrun, h⟩ := bind_eq_ok.mp h
  simp only [Except.ok.injEq, Prod.mk.injEq] at h
  exact ⟨t, y, zs, hstep, h.1 ▸ hrun, h.2.symm⟩

theorem run_length {s s' : σ} {xs : List α} {ys : List β} (h : run step s xs = .ok (s', ys)) :
    ys.length = xs.length := by
  induction xs generalizing s ys with
  | nil =>
    simp only [run_nil, Except.ok.injEq, Prod.mk.injEq] at h
    simp [← h.2]
  | cons x xs ih =>
    obtain ⟨t, y, zs, -, hrun, rfl⟩ := run_eq_cons h
    simp [ih hrun]

theorem run_take {s s' : σ} {xs : List α} {ys : List β} (h : run step s xs = .ok (s', ys)) {i : Nat}
    {x : α} {y : β} (hx : xs[i]? = some x) (hy : ys[i]? = some y) :
    ∃ t t', run step s (xs.take i) = .ok (t, ys.take i) ∧ step t x = .ok (t', y) := by
  induction xs generalizing s ys i with
  | nil => simp at hx
  | cons z xs ih =>
    obtain ⟨u, w, zs, hstep, hrun, rfl⟩ := run_eq_cons h
    cases i with
    | zero =>
      obtain rfl : z = x := by simpa using hx
      obtain rfl : w = y := by simpa using hy
      exact ⟨s, u, rfl, hstep⟩
    | succ i =>
      obtain ⟨t, t', hpast, hnow⟩ := ih hrun (by simpa using hx) (by simpa using hy)
      refine ⟨t, t', ?_, hnow⟩
      rw [List.take_succ_cons, List.take_succ_cons, run_cons, hstep, ok_bind, hpast, ok_bind]

theorem run_history {Inv : List α → σ → Prop} {Good : α → Prop}
    (keep : ∀ past s x s' y, Inv past s → Good x → step s x = .ok (s', y) → Inv (past ++ [x]) s')
    {past xs : List α} {s s' : σ} {ys : List β} (hinv : Inv past s) (hgood : ∀ x ∈ xs, Good x)
    (h : run step s xs = .ok (s', ys)) : Inv (past ++ xs) s' := by
  induction xs generalizing past s ys with
  | nil =>
    simp only [run_nil, Except.ok.injEq, Prod.mk.injEq] at h
    rw [List.append_nil]
    exact h.1 ▸ hinv
  | cons x xs ih =>
    obtain ⟨t, y, zs, hstep, hrun, rfl⟩ := run_eq_cons h
    have ht := keep past s x t y hinv (hgood x (by simp)) hstep
    have hs' := ih ht (fun z hz => hgood z (by simp [hz])) hrun
    rwa [List.append_assoc, List.singleton_append] at hs'

theorem run_supplied {Inv : List α → σ → Prop} {Good : α → Prop} {Enough : List α → Prop}
    {E : ε → Prop}
    (next : ∀ past s x, Inv past s → Good x → Enough (past ++ [x]) → ¬Stops E (step s x))
    (keep : ∀ past s x s' y, Inv past s → Good x → step s x = .ok (s', y) → Inv (past ++ [x]) s')
    (fewer : ∀ xs ys, Enough (xs ++ ys) → Enough xs)
    {past xs : List α} {s : σ} (hinv : Inv past s) (hgood : ∀ x ∈ xs, Good x)
    (henough : Enough (past ++ xs)) : ¬Stops E (run step s xs) := by
  induction xs generalizing past s with
  | nil => exact not_stops_ok _
  | cons x xs ih =>
    have hsplit : past ++ x :: xs = past ++ [x] ++ xs := by simp
    rw [hsplit] at henough
    rw [run_cons, stops_bind]
    rintro (hstop | ⟨⟨t, y⟩, hstep, hstop⟩)
    · exact next past s x hinv (hgood x (by simp)) (fewer _ _ henough) hstop
    rcases stops_bind.mp hstop with hstop | ⟨q, -, hstop⟩
    · have ht := keep past s x t y hinv (hgood x (by simp)) hstep
      exact ih ht (fun z hz => hgood z (by simp [hz])) henough hstop
    · exact not_stops_ok _ hstop

def answers (expect : List α → α → β) : List α → List α → List β
  | _, [] => []
  | past, x :: xs => expect past x :: answers expect (past ++ [x]) xs

theorem answers_length (expect : List α → α → β) (past xs : List α) :
    (answers expect past xs).length = xs.length := by
  induction xs generalizing past with
  | nil => rfl
  | cons x xs ih => simp [answers, ih]

theorem answers_getElem? (expect : List α → α → β) (past xs : List α) (i : Nat) :
    (answers expect past xs)[i]? = xs[i]?.map (expect (past ++ xs.take i)) := by
  induction xs generalizing past i with
  | nil => simp [answers]
  | cons x xs ih =>
    cases i with
    | zero => simp [answers]
    | succ i => simp [answers, ih]

theorem run_answers {Inv : List α → σ → Prop} {Good : α → Prop} {expect : List α → α → β}
    {E : ε → Prop}
    (next : ∀ past s x, Inv past s → Good x →
      Stops E (step s x) ∨ ∃ s', step s x = .ok (s', expect past x) ∧ Inv (past ++ [x]) s')
    {past xs : List α} {s : σ} (hinv : Inv past s) (hgood : ∀ x ∈ xs, Good x) :
    Stops E (run step s xs) ∨
      ∃ s', run step s xs = .ok (s', answers expect past xs) ∧ Inv (past ++ xs) s' := by
  induction xs generalizing past s with
  | nil => exact Or.inr ⟨s, rfl, by simpa using hinv⟩
  | cons x xs ih =>
    rw [run_cons]
    rcases next past s x hinv (hgood x (by simp)) with h | ⟨t, h, ht⟩
    · exact Or.inl (h.bind _)
    · rw [h, ok_bind]
      rcases ih ht (fun z hz => hgood z (by simp [hz])) with h' | ⟨s', h', hs'⟩
      · exact Or.inl (h'.bind _)
      · right
        refine ⟨s', ?_, by simpa using hs'⟩
        rw [h', ok_bind]
        rfl

theorem run_simulates {τ α' β' : Type} {step' : τ → α' → Except ε (τ × β')} {f : σ → τ}
    {P : α → α' → Prop} {Q : β → β' → Prop}
    (sim : ∀ s x s' y, step s x = .ok (s', y) →
      ∃ x' y', P x x' ∧ Q y y' ∧ step' (f s) x' = .ok (f s', y'))
    {s s' : σ} {xs : List α} {ys : List β} (h : run step s xs = .ok (s', ys)) :
    ∃ xs' ys', List.Forall₂ P xs xs' ∧ List.Forall₂ Q ys ys' ∧
      run step' (f s) xs' = .ok (f s', ys') := by
  induction xs generalizing s ys with
  | nil =>
    cases h
    exact ⟨[], [], .nil, .nil, rfl⟩
  | cons x xs ih =>
    obtain ⟨t, y, zs, hstep, hrun, rfl⟩ := run_eq_cons h
    obtain ⟨x', y', hx, hy, hstep'⟩ := sim s x t y hstep
    obtain ⟨xs', zs', hxs, hzs, hrun'⟩ := ih hrun
    refine ⟨x' :: xs', y' :: zs', .cons hx hxs, .cons hy hzs, ?_⟩
    rw [run_cons, hstep', ok_bind, hrun', ok_bind]

theorem run_agree {τ β' : Type} {step' : τ → α → Except ε (τ × β')} {R : σ → τ → Prop}
    {Q : β → β' → Prop}
    (sim : ∀ s t x, R s t → Agree (fun p q => R p.1 q.1 ∧ Q p.2 q.2) (step s x) (step' t x))
    {s : σ} {t : τ} (h : R s t) (xs : List α) :
    Agree (fun p q => R p.1 q.1 ∧ List.Forall₂ Q p.2 q.2) (run step s xs) (run step' t xs) := by
  induction xs generalizing s t with
  | nil => exact ⟨h, .nil⟩
  | cons x xs ih =>
    rw [run_cons, run_cons]
    refine (sim s t x h).bind fun p q hpq => ?_
    refine (ih hpq.1).bind fun p' q' hpq' => ?_
    exact ⟨hpq'.1, .cons hpq.2 hpq'.2⟩

theorem run_agreeUnless {τ : Type} {step' : τ → α → Except ε (τ × β)} {E : ε → Prop}
    {R : σ → τ → Prop}
    (sim : ∀ s t x, R s t →
      AgreeUnless E (fun p q => R p.1 q.1 ∧ p.2 = q.2) (step s x) (step' t x))
    {s : σ} {t : τ} (h : R s t) (xs : List α) :
    AgreeUnless E (fun p q => R p.1 q.1 ∧ p.2 = q.2) (run step s xs) (run step' t xs) := by
  induction xs generalizing s t with
  | nil => exact Or.inr ⟨h, rfl⟩
  | cons x xs ih =>
    rw [run_cons, run_cons]
    refine (sim s t x h).bind fun p q hpq => ?_
    refine (ih hpq.1).bind fun p' q' hpq' => ?_
    exact Or.inr ⟨hpq'.1, by rw [hpq.2, hpq'.2]⟩

section
variable {δ : Type}

theorem run_refines {R : σ → δ → Prop} {next : δ → α → δ} {E : ε → Prop}
    (sim : ∀ s d x, R s d →
      Stops E (step s x) ∨ ∃ s' y, step s x = .ok (s', y) ∧ R s' (next d x))
    {s : σ} {d : δ} (h : R s d) (xs : List α) :
    Stops E (run step s xs) ∨
      ∃ s' ys, run step s xs = .ok (s', ys) ∧ R s' (xs.foldl next d) := by
  induction xs generalizing s d with
  | nil => exact Or.inr ⟨s, [], rfl, h⟩
  | cons x xs ih =>
    rw [run_cons]
    rcases sim s d x h with hstop | ⟨t, y, hstep, ht⟩
    · exact Or.inl (hstop.bind _)
    · rw [hstep, ok_bind]
      rcases ih ht with hstop | ⟨s', ys, hrun, hs'⟩
      · exact Or.inl (hstop.bind _)
      · exact Or.inr ⟨s', y :: ys, by rw [hrun, ok_bind], hs'⟩

end

/-- The condition holds of every input in the state it meets. -/
def Along (step : σ → α → Except ε (σ × β)) (P : σ → α → Prop) : σ → List α → Prop
  | _, [] => True
  | s, x :: xs => P s x ∧ ∀ s' y, step s x = .ok (s', y) → Along step P s' xs

theorem Along.cons {P : σ → α → Prop} {s t : σ} {x : α} {y : β} {xs : List α}
    (hstep : step s x = .ok (t, y)) (hx : P s x) (hxs : Along step P t xs) :
    Along step P s (x :: xs) := by
  refine ⟨hx, fun s' y' h => ?_⟩
  obtain ⟨rfl, rfl⟩ := Prod.mk.inj (Except.ok.inj (hstep.symm.trans h))
  exact hxs

/-- Every step of the run succeeds and is as promised, the answers so far given. -/
def Meets (step : σ → α → Except ε (σ × β)) (Q : List β → σ → σ → β → Prop) :
    List β → σ → List α → Prop
  | _, _, [] => True
  | past, s, x :: xs =>
      ∃ s' y, step s x = .ok (s', y) ∧ Q past s s' y ∧ Meets step Q (past ++ [y]) s' xs

theorem Meets.last {Q : List β → σ → σ → β → Prop} {past ys : List β} {s t t' : σ} {xs : List α}
    {x : α} {y : β} (h : Meets step Q past s (xs ++ [x])) (hrun : run step s xs = .ok (t, ys))
    (hstep : step t x = .ok (t', y)) : Q (past ++ ys) t t' y := by
  induction xs generalizing past s ys with
  | nil =>
    obtain ⟨rfl, rfl⟩ := Prod.mk.inj (Except.ok.inj hrun)
    obtain ⟨t₁, y₁, hstep₁, hQ, -⟩ := h
    obtain ⟨rfl, rfl⟩ := Prod.mk.inj (Except.ok.inj (hstep.symm.trans hstep₁))
    rwa [List.append_nil]
  | cons z xs ih =>
    obtain ⟨u, w, zs, hfirst, hrest, rfl⟩ := run_eq_cons hrun
    obtain ⟨u₁, w₁, hfirst₁, -, hmeets⟩ := h
    obtain ⟨rfl, rfl⟩ := Prod.mk.inj (Except.ok.inj (hfirst.symm.trans hfirst₁))
    have hQ := ih hmeets hrest
    rwa [List.append_assoc, List.singleton_append] at hQ

theorem meets_iff_along {Inv : List β → σ → Prop} {G : α → Prop} {P : σ → α → Prop}
    {Q : List β → σ → σ → β → Prop}
    (hgood : ∀ past s x, Inv past s → G x → P s x →
      ∃ s' y, step s x = .ok (s', y) ∧ Q past s s' y ∧ Inv (past ++ [y]) s')
    (hbad : ∀ past s x s' y, Inv past s → G x → step s x = .ok (s', y) → Q past s s' y → P s x)
    {past : List β} {s : σ} {xs : List α} (hinv : Inv past s) (hxs : ∀ x ∈ xs, G x) :
    Meets step Q past s xs ↔ Along step P s xs := by
  induction xs generalizing past s with
  | nil => exact Iff.rfl
  | cons x xs ih =>
    have hx := hxs x (by simp)
    have hrest : ∀ z ∈ xs, G z := fun z hz => hxs z (by simp [hz])
    constructor
    · rintro ⟨t, y, hstep, hQ, hmeets⟩
      have hP := hbad past s x t y hinv hx hstep hQ
      obtain ⟨t', y', hstep', -, ht⟩ := hgood past s x hinv hx hP
      obtain ⟨rfl, rfl⟩ := Prod.mk.inj (Except.ok.inj (hstep.symm.trans hstep'))
      exact Along.cons hstep hP ((ih ht hrest).mp hmeets)
    · rintro ⟨hP, halong⟩
      obtain ⟨t, y, hstep, hQ, ht⟩ := hgood past s x hinv hx hP
      exact ⟨t, y, hstep, hQ, (ih ht hrest).mpr (halong t y hstep)⟩

theorem run_along {Inv : List β → σ → Prop} {P : σ → α → Prop}
    (next : ∀ past s x, Inv past s → P s x →
      ∃ s' y, step s x = .ok (s', y) ∧ Inv (past ++ [y]) s')
    {past : List β} {xs : List α} {s : σ} (hinv : Inv past s) (halong : Along step P s xs) :
    ∃ s' ys, run step s xs = .ok (s', ys) ∧ Inv (past ++ ys) s' := by
  induction xs generalizing past s with
  | nil => exact ⟨s, [], rfl, by simpa using hinv⟩
  | cons x xs ih =>
    obtain ⟨hx, hrest⟩ := halong
    obtain ⟨t, y, hstep, ht⟩ := next past s x hinv hx
    obtain ⟨s', ys, hrun, hs'⟩ := ih ht (hrest t y hstep)
    refine ⟨s', y :: ys, ?_, by simpa using hs'⟩
    rw [run_cons, hstep, ok_bind, hrun, ok_bind]

end Fallible
