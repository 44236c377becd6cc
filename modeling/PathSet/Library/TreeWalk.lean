import PathSet.Library.LinkedTree
import PathSet.Library.Fallible

/-!
The walk in order over a tree of cells. It keeps the symbols it has passed on a stack
and writes one line for each end mark.
-/

namespace TreeWalk
open Fallible Pointer LinkedTree TernaryTree

section
variable {ε α β : Type} [DecidableEq α]

def onLink (p : Nat) (below : Except ε (List β)) : Except ε (List β) :=
  if p ≠ 0 then below else .ok []

def walk (stuck : ε) (read : Nat → Except ε (Cell α)) (e : α)
    (line : List α → Except ε (List β)) : Nat → List α → Nat → Except ε (List β)
  | 0, _, _ => .error stuck
  | fuel + 1, stack, p => do
      let c ← read p
      let lo ← onLink c.lo (walk stuck read e line fuel stack c.lo)
      let own ← (if c.sym = e then line stack
        else onLink c.eq (walk stuck read e line fuel (stack ++ [c.sym]) c.eq))
      let hi ← onLink c.hi (walk stuck read e line fuel stack c.hi)
      pure (lo ++ own ++ hi)

theorem walk_spec {stuck : ε} {cells : List (Cell α)} {read : Nat → Except ε (Cell α)} {e : α}
    {line : List α → Except ε (List β)} {T : SearchTree α} {p fuel : Nat} {stack : List α}
    (hread : ∀ p c, deref cells p = some c → read p = .ok c) (hrep : Rep e cells T p)
    (hend : Ended e T) (hne : T ≠ .nil) (hfuel : size T ≤ fuel) :
    walk stuck read e line fuel stack p = writeAll (fun b => line (stack ++ b)) (bodies e T) := by
  induction T generalizing p fuel stack with
  | nil => exact absurd rfl hne
  | node id s lo eq hi ihl ihe ihh =>
    obtain ⟨rfl, c, hc, rfl, hlo, hhi, heq⟩ := hrep
    obtain ⟨hends, hendlo, hendeq, hendhi⟩ := hend
    -- a null link stands for an empty part
    have part : ∀ {S : SearchTree α} {q fuel : Nat} {stack : List α}, Rep e cells S q →
        (S ≠ .nil → walk stuck read e line fuel stack q =
          writeAll (fun b => line (stack ++ b)) (bodies e S)) →
        onLink q (walk stuck read e line fuel stack q) =
          writeAll (fun b => line (stack ++ b)) (bodies e S) := by
      intro S q fuel stack hS hwalk
      cases S with
      | nil =>
        obtain rfl : q = 0 := hS
        rfl
      | node id' s' lo' eq' hi' =>
        obtain ⟨rfl, d, hd, -⟩ := id hS
        have hq : q ≠ 0 := by
          rintro rfl
          simp at hd
        rw [onLink, if_pos hq]
        exact hwalk (by simp)
    cases fuel with
    | zero => simp [size] at hfuel
    | succ fuel =>
      simp only [size] at hfuel
      have plo := @part lo c.lo fuel stack hlo fun h => ihl hlo hendlo h (by omega)
      have phi := @part hi c.hi fuel stack hhi fun h => ihh hhi hendhi h (by omega)
      have pown : (if c.sym = e then line stack
          else onLink c.eq (walk stuck read e line fuel (stack ++ [c.sym]) c.eq)) =
          writeAll (fun b => line (stack ++ b))
            (if c.sym = e then [[]] else (bodies e eq).map (c.sym :: ·)) := by
        by_cases hz : c.sym = e
        · rw [if_pos hz, if_pos hz, writeAll, writeAll, List.append_nil]
          cases line stack <;> simp
        · rw [if_neg hz] at heq
          have peq := @part eq c.eq fuel (stack ++ [c.sym]) heq fun h => ihe heq hendeq h (by omega)
          simp only [List.append_assoc, List.singleton_append] at peq
          rw [if_neg hz, if_neg hz, writeAll_map, peq]
      simp only [walk, hread p c hc, ok_bind, pure_eq_ok, plo, phi, pown]
      simp only [bodies, writeAll_append, Fallible.bind_assoc, ok_bind]

theorem exists_below {cells : List (Cell α)} {e : α} {T : SearchTree α} {r p : Nat}
    (hrep : Rep e cells T r) (hend : Ended e T) (hp : p ∈ ids T) :
    ∃ S pre, Rep e cells S p ∧ Ended e S ∧ S ≠ .nil ∧ size S ≤ size T ∧
      ∀ b ∈ bodies e S, pre ++ b ∈ bodies e T := by
  induction T generalizing r with
  | nil => cases hp
  | node id s lo eq hi ihl ihe ihh =>
    have hnode := hrep
    obtain ⟨rfl, c, hc, rfl, hlo, hhi, heq⟩ := hrep
    obtain ⟨hends, hendlo, hendeq, hendhi⟩ := id hend
    simp only [ids, List.mem_cons, List.mem_append] at hp
    rcases hp with rfl | (hp | hp) | hp
    · exact ⟨_, [], hnode, hend, by simp, le_refl _, fun b hb => hb⟩
    · obtain ⟨S, pre, hS, hendS, hne, hsize, hbodies⟩ := ihl hlo hendlo hp
      refine ⟨S, pre, hS, hendS, hne, by simp only [size]; omega, fun b hb => ?_⟩
      exact List.mem_append_left _ (List.mem_append_left _ (hbodies b hb))
    · by_cases hz : c.sym = e
      · rw [hends.mp hz] at hp
        cases hp
      · rw [if_neg hz] at heq
        obtain ⟨S, pre, hS, hendS, hne, hsize, hbodies⟩ := ihe heq hendeq hp
        refine ⟨S, c.sym :: pre, hS, hendS, hne, by simp only [size]; omega, fun b hb => ?_⟩
        refine List.mem_append_left _ (List.mem_append_right _ ?_)
        rw [if_neg hz]
        exact List.mem_map_of_mem (hbodies b hb)
    · obtain ⟨S, pre, hS, hendS, hne, hsize, hbodies⟩ := ihh hhi hendhi hp
      refine ⟨S, pre, hS, hendS, hne, by simp only [size]; omega, fun b hb => ?_⟩
      exact List.mem_append_right _ (hbodies b hb)

end

section
variable {ε α β τ : Type} [DecidableEq α]

/-- The walk with a stack and an output in a state. A symbol is pushed for the cells behind
its link, and popped behind them. -/
def walkOn (stuck : ε) (read : Nat → Except ε (Cell α)) (e : α) (line : τ → Except ε τ)
    (push : τ → α → Except ε τ) (pop : τ → Except ε τ) : Nat → τ → Nat → Except ε τ
  | 0, _, _ => .error stuck
  | fuel + 1, s, p => do
      let c ← read p
      let s ← (if c.lo ≠ 0 then walkOn stuck read e line push pop fuel s c.lo else pure s)
      let s ← (if c.sym = e then line s
        else if c.eq ≠ 0 then do
          let s ← push s c.sym
          let s ← walkOn stuck read e line push pop fuel s c.eq
          pop s
        else pure s)
      if c.hi ≠ 0 then walkOn stuck read e line push pop fuel s c.hi else pure s

theorem walkOn_agree {stuck : ε} {read : Nat → Except ε (Cell α)} {e : α} {E : ε → Prop}
    {line : τ → Except ε τ} {push : τ → α → Except ε τ} {pop : τ → Except ε τ}
    {line' : List α → Except ε (List β)} {R : τ → List α → List β → Prop}
    (hline : ∀ {s xs out}, R s xs out →
      AgreeUnless E (fun s' text => R s' xs (out ++ text)) (line s) (line' xs))
    (hpush : ∀ {s xs out a}, R s xs out → a ≠ e →
      Stops E (push s a) ∨ ∃ s', push s a = .ok s' ∧ R s' (xs ++ [a]) out)
    (hpop : ∀ {s xs out a}, R s (xs ++ [a]) out → ∃ s', pop s = .ok s' ∧ R s' xs out)
    {fuel : Nat} {s : τ} {xs : List α} {out : List β} {p : Nat} (h : R s xs out) :
    AgreeUnless E (fun s' text => R s' xs (out ++ text))
      (walkOn stuck read e line push pop fuel s p) (walk stuck read e line' fuel xs p) := by
  induction fuel generalizing s xs out p with
  | zero => exact Or.inr rfl
  | succ fuel ih =>
    have skip : ∀ {s : τ} {out : List β}, R s xs out →
        AgreeUnless E (fun s' text => R s' xs (out ++ text)) (.ok s) (.ok []) := by
      intro s out hs
      refine Or.inr (?_ : R s xs (out ++ []))
      rwa [List.append_nil]
    have link : ∀ {s : τ} {out : List β} (q : Nat), R s xs out →
        AgreeUnless E (fun s' text => R s' xs (out ++ text))
          (if q ≠ 0 then walkOn stuck read e line push pop fuel s q else pure s)
          (onLink q (walk stuck read e line' fuel xs q)) := by
      intro s out q hs
      rw [onLink]
      split_ifs
      · exact ih hs
      · exact skip hs
    have own : ∀ {s : τ} {out : List β} (c : Cell α), R s xs out →
        AgreeUnless E (fun s' text => R s' xs (out ++ text))
          (if c.sym = e then line s
            else if c.eq ≠ 0 then do
              let s ← push s c.sym
              let s ← walkOn stuck read e line push pop fuel s c.eq
              pop s
            else pure s)
          (if c.sym = e then line' xs
            else onLink c.eq (walk stuck read e line' fuel (xs ++ [c.sym]) c.eq)) := by
      intro s out c hs
      by_cases hend : c.sym = e
      · rw [if_pos hend, if_pos hend]
        exact hline hs
      rw [if_neg hend, if_neg hend, onLink]
      by_cases heq : c.eq ≠ 0
      · rw [if_pos heq, if_pos heq]
        -- what is pushed for the cells behind the link is on top when they are done
        rcases hpush hs hend with hstop | ⟨s₁, hrun, hs₁⟩
        · exact Or.inl (hstop.bind _)
        · rw [hrun, ok_bind]
          exact (ih hs₁).bind_left fun s₂ text hs₂ => hpop hs₂
      · rw [if_neg heq, if_neg heq]
        exact skip hs
    rw [walkOn, walk]
    refine agreeUnless_bind _ fun c => ?_
    refine (link c.lo h).bind fun s₁ lo hs₁ => ?_
    refine (own c hs₁).bind fun s₂ mid hs₂ => ?_
    refine (link c.hi hs₂).bind_right fun s₃ hi hs₃ => ?_
    simpa only [List.append_assoc] using hs₃

end

end TreeWalk
