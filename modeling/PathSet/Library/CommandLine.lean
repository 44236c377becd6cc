import Mathlib.Data.List.Nodup
import PathSet.Library.GetOpt

/-!
The grammar of command lines. A line is read without a complaint just when it is in the
grammar, and the events and the operands are those of its derivation.
-/

namespace GetOpt

variable {T : Table}

inductive Letters (T : Table) : Word → List Word → List Event → List Word → Prop
  | last {c : UInt8} {rest : List Word} (hc : T.short c = some false) :
      Letters T [c] rest [.option c.toNat none] rest
  | cons {c : UInt8} {cs : Word} {rest rest' : List Word} {es : List Event}
      (hc : T.short c = some false) (hcs : Letters T cs rest es rest') :
      Letters T (c :: cs) rest (.option c.toNat none :: es) rest'
  | joined {c : UInt8} {cs : Word} {rest : List Word} (hc : T.short c = some true) (hne : cs ≠ []) :
      Letters T (c :: cs) rest [.option c.toNat (some cs)] rest
  | next {c : UInt8} {a : Word} {rest : List Word} (hc : T.short c = some true) :
      Letters T [c] (a :: rest) [.option c.toNat (some a)] rest

inductive Names (T : Table) : Word → List Word → Event → List Word → Prop
  | plain {o : LongOption} {name : Word} {rest : List Word} (hname : lookup T.long name = some o)
      (heq : 61 ∉ name) (harg : o.hasArg = false) : Names T name rest (o.event none) rest
  | given {o : LongOption} {name a : Word} {rest : List Word} (hname : lookup T.long name = some o)
      (heq : 61 ∉ name) (harg : o.hasArg = true) :
      Names T (name ++ 61 :: a) rest (o.event (some a)) rest
  | next {o : LongOption} {name a : Word} {rest : List Word} (hname : lookup T.long name = some o)
      (heq : 61 ∉ name) (harg : o.hasArg = true) : Names T name (a :: rest) (o.event (some a)) rest

inductive Reads (T : Table) : List Word → List Event → List Word → Prop
  | nil : Reads T [] [] []
  | dashes (operands : List Word) : Reads T (dashes :: operands) [] operands
  | operand {a : Word} {args operands : List Word} {es : List Event} (ha : ¬IsOption a)
      (hrest : Reads T args es operands) : Reads T (a :: args) es (a :: operands)
  | name {body : Word} {args rest operands : List Word} {e : Event} {es : List Event}
      (hne : body ≠ []) (hname : Names T body args e rest) (hrest : Reads T rest es operands) :
      Reads T ((45 :: 45 :: body) :: args) (e :: es) operands
  | letters {cs : Word} {args rest operands : List Word} {es es' : List Event}
      (hcs : Letters T cs args es rest) (hrest : Reads T rest es' operands) :
      Reads T ((45 :: cs) :: args) (es ++ es') operands

theorem nameOf_append {name : Word} (heq : 61 ∉ name) (a : Word) : nameOf (name ++ 61 :: a) = name := by
  induction name with
  | nil => rfl
  | cons c name ih =>
    have hc : c ≠ 61 := fun h => heq (by simp [h])
    have hrest := ih fun h => heq (List.mem_cons_of_mem c h)
    rw [nameOf] at hrest ⊢
    rw [List.cons_append, List.takeWhile_cons_of_pos (by simpa using hc), hrest]

theorem nameOf_self {name : Word} (heq : 61 ∉ name) : nameOf name = name := by
  induction name with
  | nil => rfl
  | cons c name ih =>
    have hc : c ≠ 61 := fun h => heq (by simp [h])
    have hrest := ih fun h => heq (List.mem_cons_of_mem c h)
    rw [nameOf] at hrest ⊢
    rw [List.takeWhile_cons_of_pos (by simpa using hc), hrest]

theorem body_cases (body : Word) :
    61 ∉ nameOf body ∧ (body = nameOf body ∨ ∃ a, body = nameOf body ++ 61 :: a) := by
  induction body with
  | nil => exact ⟨by simp [nameOf], Or.inl rfl⟩
  | cons c body ih =>
    by_cases hc : c = 61
    · have hnil : nameOf (c :: body) = [] := List.takeWhile_cons_of_neg (by simpa using hc)
      rw [hnil, hc]
      exact ⟨by simp, Or.inr ⟨body, rfl⟩⟩
    · have hcons : nameOf (c :: body) = c :: nameOf body :=
        List.takeWhile_cons_of_pos (by simpa using hc)
      obtain ⟨hnot, hbody | ⟨a, ha⟩⟩ := ih
      · refine ⟨?_, Or.inl ?_⟩
        · simp [hcons, hnot, Ne.symm hc]
        · rw [hcons, ← hbody]
      · refine ⟨?_, Or.inr ⟨a, ?_⟩⟩
        · simp [hcons, hnot, Ne.symm hc]
        · rw [hcons, List.cons_append, ← ha]

theorem Names.scanned {body : Word} {rest rest' : List Word} {e : Event}
    (h : Names T body rest e rest') (prev elem : Word) (operands : List Word) :
    ∃ prev', longOption T ⟨prev, elem, [], rest, operands⟩ body =
      .event e ⟨prev', elem, [], rest', operands⟩ := by
  cases h with
  | plain hname heq harg =>
    refine ⟨elem, ?_⟩
    simp [longOption, nameOf_self heq, hname, harg]
  | given hname heq harg =>
    refine ⟨elem, ?_⟩
    simp [longOption, nameOf_append heq, hname, harg]
  | @next o name a rest hname heq harg =>
    refine ⟨a, ?_⟩
    simp [longOption, nameOf_self heq, hname, harg, takeArg]

theorem Letters.ne_nil {cs : Word} {rest rest' : List Word} {es : List Event}
    (h : Letters T cs rest es rest') : cs ≠ [] := by
  cases h <;> simp

theorem Letters.head_ne {c : UInt8} {cs : Word} {rest rest' : List Word} {es : List Event}
    (h : Letters T (c :: cs) rest es rest') : c ≠ 45 := by
  rintro rfl
  have hdash := T.dash
  cases h with
  | last hc => simp [hdash] at hc
  | cons hc _ => simp [hdash] at hc
  | joined hc _ => simp [hdash] at hc
  | next hc => simp [hdash] at hc

theorem letter_cluster (s : Scan) (c : UInt8) (cs cluster : Word) :
    letter T { s with cluster := cluster } c cs = letter T s c cs := by
  simp only [letter]

theorem next_letters {c : UInt8} {cs prev elem : Word} {rest operands : List Word} (hc : c ≠ 45) :
    next T ⟨prev, elem, [], (45 :: c :: cs) :: rest, operands⟩ =
      next T ⟨operands.getLastD prev, 45 :: c :: cs, c :: cs, rest, operands⟩ := by
  have hdash : ¬(45 :: c :: cs : Word) = dashes := by simp [dashes, hc]
  have hoption : IsOption (45 :: c :: cs) := ⟨rfl, by simp⟩
  have hnext : next T ⟨operands.getLastD prev, 45 :: c :: cs, c :: cs, rest, operands⟩ =
      letter T ⟨operands.getLastD prev, 45 :: c :: cs, c :: cs, rest, operands⟩ c cs := rfl
  have hcluster := @letter_cluster T ⟨operands.getLastD prev, 45 :: c :: cs, [], rest, operands⟩ c cs
    (c :: cs)
  rw [hnext, hcluster, next]
  simp only [element, hdash, hoption, if_false, if_true, hc]

theorem Runs.congr {s s' : Scan} {tr : List (Event × Word)} {operands : List Word}
    (h : Runs T s tr operands) (hnext : next T s' = next T s) : Runs T s' tr operands := by
  cases h with
  | stop hstop => exact .stop (hnext.trans hstop)
  | event hevent hrest => exact .event (hnext.trans hevent) hrest

theorem Letters.scanned {cs : Word} {rest rest' : List Word} {es : List Event}
    (h : Letters T cs rest es rest') (prev elem : Word) (operands : List Word) :
    ∃ tr prev', tr.map Prod.fst = es ∧ ∀ tr' operands',
      Runs T ⟨prev', elem, [], rest', operands⟩ tr' operands' →
        Runs T ⟨prev, elem, cs, rest, operands⟩ (tr ++ tr') operands' := by
  induction h with
  | @last c rest hc =>
    refine ⟨[(.option c.toNat none, elem)], elem, rfl, fun tr' operands' hruns => ?_⟩
    refine .event ?_ hruns
    simp [GetOpt.next, letter, hc]
  | @cons c cs rest rest' es hc hcs ih =>
    obtain ⟨tr, prev', htr, hrest⟩ := ih
    refine ⟨(.option c.toNat none, prev) :: tr, prev', by rw [List.map_cons, htr],
      fun tr' operands' hruns => ?_⟩
    refine .event ?_ (hrest tr' operands' hruns)
    simp [GetOpt.next, letter, hc, hcs.ne_nil]
  | @joined c cs rest hc hne =>
    refine ⟨[(.option c.toNat (some cs), elem)], elem, rfl, fun tr' operands' hruns => ?_⟩
    refine .event ?_ hruns
    simp [GetOpt.next, letter, hc, hne]
  | @next c a rest hc =>
    refine ⟨[(.option c.toNat (some a), a)], a, rfl, fun tr' operands' hruns => ?_⟩
    refine .event ?_ hruns
    simp [GetOpt.next, letter, hc, takeArg]

theorem Reads.scanned {args operands : List Word} {es : List Event} (h : Reads T args es operands)
    (prev elem : Word) (before : List Word) :
    ∃ tr, tr.map Prod.fst = es ∧ Runs T ⟨prev, elem, [], args, before⟩ tr (before ++ operands) := by
  induction h generalizing prev elem before with
  | nil => exact ⟨[], rfl, .stop (by simp [GetOpt.next, element])⟩
  | dashes operands => exact ⟨[], rfl, .stop (by simp [GetOpt.next, element])⟩
  | @operand a args operands es ha _ ih =>
    obtain ⟨tr, htr, hruns⟩ := ih prev elem (before ++ [a])
    rw [List.append_assoc, List.singleton_append] at hruns
    have hdash : ¬a = GetOpt.dashes := by
      rintro rfl
      exact ha ⟨rfl, by decide⟩
    refine ⟨tr, htr, hruns.congr ?_⟩
    simp only [GetOpt.next, element, hdash, ha, if_false]
  | @name body args rest operands e es hne hname _ ih =>
    obtain ⟨prev', hscan⟩ := hname.scanned (before.getLastD prev) (45 :: 45 :: body) before
    obtain ⟨tr, htr, hruns⟩ := ih prev' (45 :: 45 :: body) before
    refine ⟨(e, prev') :: tr, by rw [List.map_cons, htr], .event ?_ hruns⟩
    have hdash : ¬(45 :: 45 :: body : Word) = GetOpt.dashes := by simp [GetOpt.dashes, hne]
    have hoption : IsOption (45 :: 45 :: body) := ⟨rfl, by simp⟩
    simp only [GetOpt.next, element, hdash, hoption, if_false, if_true]
    exact hscan
  | @letters cs args rest operands es es' hcs _ ih =>
    obtain ⟨c, cs, rfl⟩ := List.exists_cons_of_ne_nil hcs.ne_nil
    obtain ⟨tr, prev', htr, hscan⟩ := hcs.scanned (before.getLastD prev) (45 :: c :: cs) before
    obtain ⟨tr', htr', hruns⟩ := ih prev' (45 :: c :: cs) before
    refine ⟨tr ++ tr', by rw [List.map_append, htr, htr'], ?_⟩
    exact (hscan tr' _ hruns).congr (next_letters hcs.head_ne)

theorem takeArg_event {s s' : Scan} {given : Word → Event} {missing e : Event}
    (h : takeArg s given missing = .event e s') (hgood : e.Good) (hmissing : ¬missing.Good) :
    ∃ a, s.rest = a :: s'.rest ∧ e = given a ∧ s'.cluster = s.cluster ∧ s'.operands = s.operands := by
  rw [takeArg] at h
  cases hrest : s.rest with
  | nil =>
    rw [hrest] at h
    cases h
    exact absurd hgood hmissing
  | cons a rest =>
    rw [hrest] at h
    cases h
    exact ⟨a, rfl, rfl, rfl, rfl⟩

theorem names_of_event {s s' : Scan} {body : Word} {e : Event}
    (h : longOption T s body = .event e s') (hgood : e.Good) (hcluster : s.cluster = []) :
    Names T body s.rest e s'.rest ∧ s'.cluster = [] ∧ s'.operands = s.operands := by
  obtain ⟨heq, hbody⟩ := body_cases body
  simp only [longOption] at h
  cases hname : lookup T.long (nameOf body) with
  | none =>
    simp only [hname] at h
    cases h
    exact hgood.elim
  | some o =>
    simp only [hname] at h
    rcases hbody with hbody | ⟨a, hbody⟩
    · have hdrop : body.drop (nameOf body).length = [] := by
        rw [← hbody]
        exact List.drop_length
      simp only [hdrop] at h
      split_ifs at h with harg
      · obtain ⟨a, hrest, rfl, hc, hops⟩ := takeArg_event h hgood id
        dsimp only at hrest
        rw [hrest, hbody]
        exact ⟨.next hname heq harg, hc.trans hcluster, hops⟩
      · cases h
        rw [hbody]
        exact ⟨.plain hname heq (by simpa using harg), hcluster, rfl⟩
    · have hdrop : body.drop (nameOf body).length = 61 :: a := by
        conv_lhs => rw [hbody]
        rw [nameOf_append heq, List.drop_left]
      simp only [hdrop] at h
      split_ifs at h with harg
      · cases h
        rw [hbody]
        exact ⟨.given hname heq harg, hcluster, rfl⟩
      · cases h
        exact hgood.elim

theorem longOption_ne_stop (s : Scan) (body : Word) (operands : List Word) :
    longOption T s body ≠ .stop operands := by
  simp only [longOption, takeArg]
  intro h
  split at h
  · cases h
  · split at h
    · split_ifs at h
    · split_ifs at h
      split at h <;> cases h

theorem letter_ne_stop (s : Scan) (c : UInt8) (cs : Word) (operands : List Word) :
    letter T s c cs ≠ .stop operands := by
  simp only [letter, takeArg]
  intro h
  split at h
  · cases h
  · cases h
  · split_ifs at h
    split at h <;> cases h

theorem letter_event {s s' : Scan} {c : UInt8} {cs : Word} {e : Event}
    (h : letter T s c cs = .event e s') (hgood : e.Good) :
    (T.short c = some false ∧ e = .option c.toNat none ∧ s'.cluster = cs ∧ s'.elem = s.elem ∧
        s'.rest = s.rest ∧ s'.operands = s.operands) ∨
      (T.short c = some true ∧ s'.cluster = [] ∧ s'.elem = s.elem ∧ s'.operands = s.operands ∧
        ((cs ≠ [] ∧ e = .option c.toNat (some cs) ∧ s'.rest = s.rest) ∨
          (cs = [] ∧ ∃ a, s.rest = a :: s'.rest ∧ e = .option c.toNat (some a)))) := by
  simp only [letter] at h
  cases hc : T.short c with
  | none =>
    simp only [hc] at h
    cases h
    exact hgood.elim
  | some b =>
    simp only [hc] at h
    cases b with
    | false =>
      left
      split_ifs at h with hcs
      all_goals cases h
      · exact ⟨rfl, rfl, hcs.symm, rfl, rfl, rfl⟩
      · exact ⟨rfl, rfl, rfl, rfl, rfl, rfl⟩
    | true =>
      right
      dsimp only at h
      split_ifs at h with hcs
      · rw [takeArg] at h
        dsimp only at h
        cases hrest : s.rest with
        | nil =>
          rw [hrest] at h
          cases h
          exact hgood.elim
        | cons a rest =>
          rw [hrest] at h
          cases h
          exact ⟨rfl, rfl, rfl, rfl, Or.inr ⟨hcs, a, rfl, rfl⟩⟩
      · cases h
        exact ⟨rfl, rfl, rfl, rfl, Or.inl ⟨hcs, rfl, rfl⟩⟩

theorem letters_of_runs {c : UInt8} {cs : Word} {s : Scan} {operands : List Word}
    {tr : List (Event × Word)} (h : Runs T s tr operands) (hcluster : s.cluster = c :: cs)
    (hgood : ∀ x ∈ tr, x.1.Good) :
    ∃ tr₁ tr₂ s', Letters T (c :: cs) s.rest (tr₁.map Prod.fst) s'.rest ∧ tr = tr₁ ++ tr₂ ∧
      s'.cluster = [] ∧ s'.operands = s.operands ∧ Runs T s' tr₂ operands := by
  induction cs generalizing c s tr with
  | nil =>
    cases h with
    | stop hstop =>
      rw [GetOpt.next, hcluster] at hstop
      exact absurd hstop (letter_ne_stop _ _ _ _)
    | @event _ s' e tr _ hevent hrest =>
      rw [GetOpt.next, hcluster] at hevent
      rcases letter_event hevent (hgood (e, s'.prev) List.mem_cons_self) with
        ⟨hc, rfl, hcl, -, hr, hops⟩ | ⟨hc, hcl, -, hops, ⟨hne, -⟩ | ⟨-, a, hr, rfl⟩⟩
      · exact ⟨[_], tr, s', hr ▸ .last hc, rfl, hcl, hops, hrest⟩
      · exact absurd rfl hne
      · rw [hr]
        exact ⟨[_], tr, s', .next hc, rfl, hcl, hops, hrest⟩
  | cons d cs ih =>
    cases h with
    | stop hstop =>
      rw [GetOpt.next, hcluster] at hstop
      exact absurd hstop (letter_ne_stop _ _ _ _)
    | @event _ s' e tr _ hevent hrest =>
      rw [GetOpt.next, hcluster] at hevent
      rcases letter_event hevent (hgood (e, s'.prev) List.mem_cons_self) with
        ⟨hc, rfl, hcl, -, hr, hops⟩ | ⟨hc, hcl, -, hops, ⟨hne, rfl, hr⟩ | ⟨hnil, -⟩⟩
      · obtain ⟨tr₁, tr₂, s'', hletters, rfl, hcl', hops', hruns⟩ :=
          ih hrest hcl fun x hx => hgood x (List.mem_cons_of_mem _ hx)
        rw [hr] at hletters
        exact ⟨(_, s'.prev) :: tr₁, tr₂, s'', .cons hc hletters, rfl, hcl', hops'.trans hops, hruns⟩
      · exact ⟨[_], tr, s', hr ▸ .joined hc hne, rfl, hcl, hops, hrest⟩
      · cases hnil

theorem Letters.left {cs : Word} {rest rest' : List Word} {es : List Event}
    (h : Letters T cs rest es rest') : wordsSize rest' ≤ wordsSize rest := by
  induction h with
  | last => exact Nat.le_refl _
  | cons _ _ ih => exact ih
  | joined => exact Nat.le_refl _
  | next =>
    rw [wordsSize_cons]
    omega

theorem Names.left {body : Word} {rest rest' : List Word} {e : Event}
    (h : Names T body rest e rest') : wordsSize rest' ≤ wordsSize rest := by
  cases h with
  | plain => exact Nat.le_refl _
  | given => exact Nat.le_refl _
  | next =>
    rw [wordsSize_cons]
    omega

theorem reads_of_runs {s : Scan} {tr : List (Event × Word)} {operands : List Word}
    (h : Runs T s tr operands) (hcluster : s.cluster = []) (hgood : ∀ x ∈ tr, x.1.Good) :
    ∃ ops, operands = s.operands ++ ops ∧ Reads T s.rest (tr.map Prod.fst) ops := by
  induction hsize : wordsSize s.rest using Nat.strongRecOn generalizing s tr with
  | _ n ih =>
    subst hsize
    obtain ⟨prev, elem, cluster, rest, before⟩ := s
    obtain rfl : cluster = [] := hcluster
    cases rest with
    | nil =>
      have hnext : next T ⟨prev, elem, [], [], before⟩ = .stop before := rfl
      cases h with
      | stop hstop =>
        cases hnext.symm.trans hstop
        exact ⟨[], (List.append_nil _).symm, .nil⟩
      | event hevent _ => cases hnext.symm.trans hevent
    | cons a rest =>
      by_cases hdash : a = GetOpt.dashes
      · subst hdash
        have hnext : next T ⟨prev, elem, [], GetOpt.dashes :: rest, before⟩ =
            .stop (before ++ rest) := by simp [GetOpt.next, element]
        cases h with
        | stop hstop =>
          cases hnext.symm.trans hstop
          exact ⟨rest, rfl, .dashes rest⟩
        | event hevent _ => cases hnext.symm.trans hevent
      by_cases ha : IsOption a
      · obtain ⟨c, cs, rfl⟩ := ha.eq_cons
        by_cases hc : c = 45
        · subst hc
          have hnext : next T ⟨prev, elem, [], (45 :: 45 :: cs) :: rest, before⟩ =
              longOption T ⟨before.getLastD prev, 45 :: 45 :: cs, [], rest, before⟩ cs := by
            simp only [GetOpt.next, element, hdash, ha, if_false, if_true]
          cases h with
          | stop hstop =>
            exact absurd (hnext.symm.trans hstop) (longOption_ne_stop _ _ _)
          | @event _ s' e tr _ hevent hrest =>
            rw [hnext] at hevent
            obtain ⟨hname, hcl, hops⟩ := names_of_event hevent
              (hgood (e, s'.prev) List.mem_cons_self) rfl
            have hlt : wordsSize s'.rest < wordsSize ((45 :: 45 :: cs) :: rest) := by
              have hle := hname.left
              rw [wordsSize_cons]
              dsimp only at hle
              omega
            obtain ⟨ops, rfl, hreads⟩ := ih _ hlt hrest hcl
              (fun x hx => hgood x (List.mem_cons_of_mem _ hx)) rfl
            refine ⟨ops, by rw [hops], .name ?_ hname hreads⟩
            rintro rfl
            exact hdash rfl
        · have hscan := h.congr (next_letters hc).symm
          obtain ⟨tr₁, tr₂, s', hletters, rfl, hcl, hops, hrest⟩ := letters_of_runs hscan rfl hgood
          have hlt : wordsSize s'.rest < wordsSize ((45 :: c :: cs) :: rest) := by
            have hle := hletters.left
            rw [wordsSize_cons]
            dsimp only at hle
            omega
          obtain ⟨ops, rfl, hreads⟩ := ih _ hlt hrest hcl
            (fun x hx => hgood x (List.mem_append_right _ hx)) rfl
          rw [List.map_append]
          exact ⟨ops, by rw [hops], .letters hletters hreads⟩
      · have hnext : next T ⟨prev, elem, [], rest, before ++ [a]⟩ =
            next T ⟨prev, elem, [], a :: rest, before⟩ := by
          simp only [GetOpt.next, element, hdash, ha, if_false]
        have hlt : wordsSize rest < wordsSize (a :: rest) := by
          rw [wordsSize_cons]
          omega
        obtain ⟨ops, rfl, hreads⟩ := ih _ hlt (h.congr hnext) rfl hgood rfl
        exact ⟨a :: ops, by simp, .operand ha hreads⟩

theorem LongOption.event_good (o : LongOption) (arg : Option Word) : (o.event arg).Good := by
  unfold event
  split_ifs <;> trivial

theorem Letters.good {cs : Word} {rest rest' : List Word} {es : List Event}
    (h : Letters T cs rest es rest') : ∀ e ∈ es, e.Good := by
  induction h with
  | last => exact fun e he => List.mem_singleton.mp he ▸ trivial
  | cons _ _ ih =>
    intro e he
    rcases List.mem_cons.mp he with rfl | he
    · trivial
    · exact ih e he
  | joined => exact fun e he => List.mem_singleton.mp he ▸ trivial
  | next => exact fun e he => List.mem_singleton.mp he ▸ trivial

theorem Reads.good {args operands : List Word} {es : List Event} (h : Reads T args es operands) :
    ∀ e ∈ es, e.Good := by
  induction h with
  | nil => simp
  | dashes => simp
  | operand _ _ ih => exact ih
  | name _ hname _ ih =>
    intro e he
    rcases List.mem_cons.mp he with rfl | he
    · cases hname <;> exact LongOption.event_good _ _
    · exact ih e he
  | letters hcs _ ih =>
    intro e he
    rcases List.mem_append.mp he with he | he
    · exact hcs.good e he
    · exact ih e he

theorem reads_iff (prev elem : Word) {args operands : List Word} {es : List Event} :
    Reads T args es operands ↔
      ∃ tr, Runs T ⟨prev, elem, [], args, []⟩ tr operands ∧ tr.map Prod.fst = es ∧
        ∀ x ∈ tr, x.1.Good := by
  constructor
  · intro h
    obtain ⟨tr, rfl, hruns⟩ := h.scanned prev elem []
    exact ⟨tr, hruns, rfl, fun x hx => h.good x.1 (List.mem_map_of_mem hx)⟩
  · rintro ⟨tr, hruns, rfl, hgood⟩
    obtain ⟨ops, rfl, hreads⟩ := reads_of_runs hruns rfl hgood
    exact hreads

theorem Letters.suffix {cs : Word} {rest rest' : List Word} {es : List Event}
    (h : Letters T cs rest es rest') : rest' <:+ rest := by
  induction h with
  | last => exact List.suffix_refl _
  | cons _ _ ih => exact ih
  | joined => exact List.suffix_refl _
  | next => exact List.suffix_cons _ _

theorem Names.suffix {body : Word} {rest rest' : List Word} {e : Event}
    (h : Names T body rest e rest') : rest' <:+ rest := by
  cases h with
  | plain => exact List.suffix_refl _
  | given => exact List.suffix_refl _
  | next => exact List.suffix_cons _ _

theorem Reads.sublist {args operands : List Word} {es : List Event} (h : Reads T args es operands) :
    operands.Sublist args := by
  induction h with
  | nil => exact .slnil
  | dashes operands => exact List.sublist_cons_self _ _
  | operand _ _ ih => exact ih.cons_cons _
  | name _ hname _ ih => exact (ih.trans hname.suffix.sublist).cons _
  | letters hcs _ ih => exact (ih.trans hcs.suffix.sublist).cons _

def LongOption.word (o : LongOption) : Option Word → Word
  | none => 45 :: 45 :: o.name
  | some a => 45 :: 45 :: (o.name ++ 61 :: a)

structure Distinct (long : List LongOption) : Prop where
  nodup : (long.map LongOption.name).Nodup
  ne_nil : ∀ o ∈ long, o.name ≠ []
  eq : ∀ o ∈ long, 61 ∉ o.name

theorem Distinct.lookup {long : List LongOption} (h : Distinct long) {o : LongOption} (ho : o ∈ long) :
    lookup long o.name = some o := by
  have hfind : (long.find? fun o' => o'.name = o.name) = some o := by
    cases hfound : long.find? fun o' => o'.name = o.name with
    | none => exact absurd (by simp) (List.find?_eq_none.mp hfound o ho)
    | some o' =>
      have hname : o'.name = o.name := by simpa using List.find?_some hfound
      exact congrArg some (List.inj_on_of_nodup_map h.nodup (List.mem_of_find?_eq_some hfound) ho hname)
  rw [GetOpt.lookup, hfind]

theorem LongOption.reads {o : LongOption} {arg : Option Word} (hdistinct : Distinct T.long)
    (ho : o ∈ T.long) (harg : o.hasArg = arg.isSome) {args operands : List Word} {es : List Event}
    (h : Reads T args es operands) : Reads T (o.word arg :: args) (o.event arg :: es) operands := by
  have hlookup := hdistinct.lookup ho
  have heq := hdistinct.eq o ho
  cases arg with
  | none => exact .name (hdistinct.ne_nil o ho) (.plain hlookup heq harg) h
  | some a => exact .name (by simp) (.given hlookup heq harg) h

theorem reads_words (hdistinct : Distinct T.long) {xs : List (LongOption × Option Word)}
    (hxs : ∀ x ∈ xs, x.1 ∈ T.long ∧ x.1.hasArg = x.2.isSome) (operands : List Word) :
    Reads T ((xs.map fun x => x.1.word x.2) ++ GetOpt.dashes :: operands)
      (xs.map fun x => x.1.event x.2) operands := by
  induction xs with
  | nil => exact .dashes operands
  | cons x xs ih =>
    obtain ⟨ho, harg⟩ := hxs x List.mem_cons_self
    exact LongOption.reads hdistinct ho harg (ih fun y hy => hxs y (List.mem_cons_of_mem x hy))

end GetOpt
