import PathSet.Library.Fallible

/-!
Command lines with short options in clusters and with long ones, as `getopt_long` reads
them when `POSIXLY_CORRECT` is not set. Operands may stand between the options. The scanner
goes on option by option, the grammar tells what a whole command line says.
-/

namespace GetOpt

abbrev Word := List UInt8

structure LongOption where
  name : Word
  hasArg : Bool
  /-- Whether the value is stored, and not returned. -/
  flag : Bool
  val : Nat
  deriving DecidableEq, Repr

structure Table where
  short : UInt8 → Option Bool
  long : List LongOption
  dash : short 45 = none

inductive Event where
  | option (val : Nat) (arg : Option Word)
  | flag (val : Nat)
  /-- The argument of an option is missing. -/
  | missing (val : Nat)
  /-- A letter that is none, a name by zero, or a name that does not allow an argument. -/
  | refused (val : Nat)
  deriving DecidableEq, Repr

def Event.Good : Event → Prop
  | .option _ _ => True
  | .flag _ => True
  | _ => False

/-- The scanner between two options. -/
structure Scan where
  /-- The word in front of the next one. -/
  prev : Word
  elem : Word
  /-- The letters of `elem` that are left. -/
  cluster : Word
  rest : List Word
  operands : List Word

inductive Next where
  | event (e : Event) (s : Scan)
  | stop (operands : List Word)

def dashes : Word := [45, 45]

def IsOption (a : Word) : Prop := a.head? = some 45 ∧ 1 < a.length

instance (a : Word) : Decidable (IsOption a) := inferInstanceAs (Decidable (_ ∧ _))

theorem IsOption.eq_cons {a : Word} (h : IsOption a) : ∃ c cs, a = 45 :: c :: cs := by
  obtain ⟨hhead, hlen⟩ := h
  cases a with
  | nil => cases hhead
  | cons b a =>
    obtain rfl := Option.some.inj hhead
    cases a with
    | nil => exact absurd hlen (by simp)
    | cons c cs => exact ⟨c, cs, rfl⟩

def lookup (long : List LongOption) (name : Word) : Option LongOption :=
  match long.find? fun o => o.name = name with
  | some o => some o
  | none =>
      match long.filter fun o => name.isPrefixOf o.name with
      | [] => none
      | o :: os =>
          if ∀ o' ∈ os, o'.hasArg = o.hasArg ∧ o'.flag = o.flag ∧ o'.val = o.val then some o else none

def LongOption.event (o : LongOption) (arg : Option Word) : Event :=
  if o.flag then .flag o.val else .option o.val arg

def takeArg (s : Scan) (given : Word → Event) (missing : Event) : Next :=
  match s.rest with
  | [] => .event missing s
  | a :: rest => .event (given a) { s with prev := a, rest := rest }

def nameOf (body : Word) : Word := body.takeWhile (· ≠ 61)

def longOption (T : Table) (s : Scan) (body : Word) : Next :=
  let name := nameOf body
  let s := { s with prev := s.elem }
  match lookup T.long name with
  | none => .event (.refused 0) s
  | some o =>
      match body.drop name.length with
      | _ :: arg =>
          if o.hasArg then .event (o.event (some arg)) s else .event (.refused o.val) s
      | [] =>
          if o.hasArg then takeArg s (fun a => o.event (some a)) (.missing o.val)
          else .event (o.event none) s

def letter (T : Table) (s : Scan) (c : UInt8) (cs : Word) : Next :=
  let s := if cs = [] then { s with prev := s.elem, cluster := [] } else { s with cluster := cs }
  match T.short c with
  | none => .event (.refused c.toNat) s
  | some false => .event (.option c.toNat none) s
  | some true =>
      if cs = [] then takeArg s (fun a => .option c.toNat (some a)) (.missing c.toNat)
      else .event (.option c.toNat (some cs)) { s with prev := s.elem, cluster := [] }

/-- Operands are moved behind the options, so that the last one is in front of the next word. -/
def element (T : Table) (prev : Word) : List Word → List Word → Next
  | operands, [] => .stop operands
  | operands, a :: rest =>
      if a = dashes then .stop (operands ++ rest)
      else if IsOption a then
        let s := ⟨operands.getLastD prev, a, [], rest, operands⟩
        match a with
        | _ :: c :: cs => if c = 45 then longOption T s cs else letter T s c cs
        | _ => .stop operands
      else element T prev (operands ++ [a]) rest

def next (T : Table) (s : Scan) : Next :=
  match s.cluster with
  | c :: cs => letter T s c cs
  | [] => element T s.prev s.operands s.rest

def trace (T : Table) : Nat → Scan → Option (List (Event × Word) × List Word)
  | 0, _ => none
  | fuel + 1, s =>
      match next T s with
      | .stop operands => some ([], operands)
      | .event e s => (trace T fuel s).map fun r => ((e, s.prev) :: r.1, r.2)

def wordsSize : List Word → Nat
  | [] => 0
  | a :: ws => a.length + 1 + wordsSize ws

def Scan.size (s : Scan) : Nat := s.cluster.length + wordsSize s.rest

theorem wordsSize_cons (a : Word) (ws : List Word) :
    wordsSize (a :: ws) = a.length + 1 + wordsSize ws := rfl

variable {T : Table}

theorem takeArg_size {s s' : Scan} {given : Word → Event} {missing e : Event}
    (h : takeArg s given missing = .event e s') : s'.size ≤ s.size := by
  rw [takeArg] at h
  cases hrest : s.rest with
  | nil =>
    rw [hrest] at h
    cases h
    exact Nat.le_refl _
  | cons a rest =>
    rw [hrest] at h
    cases h
    simp only [Scan.size, hrest, wordsSize_cons]
    omega

theorem longOption_size {s s' : Scan} {body : Word} {e : Event}
    (h : longOption T s body = .event e s') : s'.size ≤ s.size := by
  simp only [longOption] at h
  cases hname : lookup T.long (nameOf body) with
  | none =>
    simp only [hname] at h
    cases h
    exact Nat.le_refl _
  | some o =>
    simp only [hname] at h
    split at h
    · split_ifs at h <;>
      · cases h
        exact Nat.le_refl _
    · split_ifs at h
      · exact (takeArg_size h : s'.size ≤ ({ s with prev := s.elem } : Scan).size)
      · cases h
        exact Nat.le_refl _

theorem letter_size {s s' : Scan} {c : UInt8} {cs : Word} {e : Event}
    (h : letter T s c cs = .event e s') : s'.size ≤ cs.length + wordsSize s.rest := by
  simp only [letter] at h
  by_cases hcs : cs = []
  · subst hcs
    simp only [if_true] at h
    cases hc : T.short c with
    | none =>
      simp only [hc] at h
      cases h
      exact Nat.le_refl _
    | some b =>
      cases b with
      | false =>
        simp only [hc] at h
        cases h
        exact Nat.le_refl _
      | true =>
        simp only [hc] at h
        exact takeArg_size h
  · simp only [hcs, if_false] at h
    cases hc : T.short c with
    | none =>
      simp only [hc] at h
      cases h
      exact Nat.le_refl _
    | some b =>
      cases b with
      | false =>
        simp only [hc] at h
        cases h
        exact Nat.le_refl _
      | true =>
        simp only [hc] at h
        cases h
        simp [Scan.size]

theorem element_size {prev : Word} {operands rest : List Word} {s' : Scan} {e : Event}
    (h : element T prev operands rest = .event e s') : s'.size < wordsSize rest := by
  induction rest generalizing operands with
  | nil => cases h
  | cons a rest ih =>
    rw [wordsSize_cons]
    rw [element] at h
    split_ifs at h with hdash hoption
    · obtain ⟨c, cs, rfl⟩ := hoption.eq_cons
      dsimp only at h
      split_ifs at h with hc
      · have hle := longOption_size h
        simp only [Scan.size, List.length_nil] at hle
        simp only [Scan.size, List.length_cons]
        omega
      · have hle := letter_size h
        simp only [List.length_cons]
        dsimp only at hle
        omega
    · exact Nat.lt_of_lt_of_le (ih h) (by omega)

theorem next_size {s s' : Scan} {e : Event} (h : next T s = .event e s') : s'.size < s.size := by
  rw [next] at h
  cases hcluster : s.cluster with
  | nil =>
    rw [hcluster] at h
    have hlt := element_size h
    rwa [Scan.size.eq_def s, hcluster, List.length_nil, Nat.zero_add]
  | cons c cs =>
    rw [hcluster] at h
    have hle := letter_size h
    rw [Scan.size.eq_def s, hcluster, List.length_cons]
    omega

inductive Runs (T : Table) : Scan → List (Event × Word) → List Word → Prop
  | stop {s : Scan} {operands : List Word} (h : next T s = .stop operands) : Runs T s [] operands
  | event {s s' : Scan} {e : Event} {tr : List (Event × Word)} {operands : List Word}
      (h : next T s = .event e s') (hrest : Runs T s' tr operands) :
      Runs T s ((e, s'.prev) :: tr) operands

theorem trace_runs {s : Scan} {fuel : Nat} (hfuel : s.size < fuel) :
    ∃ tr operands, trace T fuel s = some (tr, operands) ∧ Runs T s tr operands := by
  induction fuel generalizing s with
  | zero => omega
  | succ fuel ih =>
    rw [trace]
    cases hnext : next T s with
    | stop operands => exact ⟨[], operands, rfl, .stop hnext⟩
    | event e s' =>
      obtain ⟨tr, operands, htrace, hruns⟩ := ih (Nat.lt_of_lt_of_le (next_size hnext) (by omega))
      refine ⟨(e, s'.prev) :: tr, operands, ?_, .event hnext hruns⟩
      simp only [htrace, Option.map_some]

theorem Runs.unique {s : Scan} {tr tr' : List (Event × Word)} {operands operands' : List Word}
    (h : Runs T s tr operands) (h' : Runs T s tr' operands') : tr = tr' ∧ operands = operands' := by
  induction h generalizing tr' operands' with
  | stop hnext =>
    cases h' with
    | stop hnext' =>
      cases hnext.symm.trans hnext'
      exact ⟨rfl, rfl⟩
    | event hnext' _ => cases hnext.symm.trans hnext'
  | event hnext _ ih =>
    cases h' with
    | stop hnext' => cases hnext.symm.trans hnext'
    | event hnext' hrest' =>
      cases hnext.symm.trans hnext'
      obtain ⟨rfl, rfl⟩ := ih hrest'
      exact ⟨rfl, rfl⟩

def Within (args : List Word) (a : Word) : Prop := ∃ w ∈ args, a <:+ w

theorem Within.suffix {args : List Word} {a b : Word} (h : Within args b) (hab : a <:+ b) :
    Within args a := by
  obtain ⟨w, hw, hb⟩ := h
  exact ⟨w, hw, hab.trans hb⟩

def About (T : Table) (args : List Word) : Event × Word → Prop
  | (.option v arg, _) =>
      ((∃ c, v = c.toNat ∧ T.short c ≠ none) ∨ ∃ o ∈ T.long, v = o.val) ∧ ∀ a ∈ arg, Within args a
  | (.flag _, _) => True
  | (.missing v, opt) => opt.take 2 = dashes ∨ ∃ c, v = c.toNat ∧ T.short c ≠ none
  | (.refused v, opt) => v = 0 ∨ opt.take 2 = dashes ∨ ∃ c, v = c.toNat ∧ ∃ w ∈ args, c ∈ w

structure Scan.Of (args : List Word) (s : Scan) : Prop where
  cluster : s.cluster ≠ [] → Within args s.cluster
  rest : ∀ w ∈ s.rest, w ∈ args

theorem lookup_mem {long : List LongOption} {name : Word} {o : LongOption}
    (h : lookup long name = some o) : o ∈ long := by
  rw [lookup] at h
  cases hfind : long.find? fun o => o.name = name with
  | some o' =>
    rw [hfind] at h
    obtain rfl := Option.some.inj h
    exact List.mem_of_find?_eq_some hfind
  | none =>
    rw [hfind] at h
    dsimp only at h
    split at h
    · cases h
    · next o' os hfilter =>
      split_ifs at h
      obtain rfl := Option.some.inj h
      exact (List.mem_filter.mp (hfilter ▸ List.mem_cons_self)).1

theorem LongOption.about {o : LongOption} (ho : o ∈ T.long) {args : List Word} {arg : Option Word}
    (harg : ∀ a ∈ arg, Within args a) (opt : Word) : About T args (o.event arg, opt) := by
  unfold event
  split_ifs
  · trivial
  · exact ⟨Or.inr ⟨o, ho, rfl⟩, harg⟩

theorem takeArg_about {args : List Word} {s s' : Scan} {given : Word → Event} {missing e : Event}
    (hs : s.Of args) (hgiven : ∀ a ∈ args, ∀ opt, About T args (given a, opt))
    (hmissing : About T args (missing, s.prev)) (h : takeArg s given missing = .event e s') :
    s'.Of args ∧ About T args (e, s'.prev) := by
  rw [takeArg] at h
  cases hrest : s.rest with
  | nil =>
    rw [hrest] at h
    cases h
    exact ⟨hs, hmissing⟩
  | cons a rest =>
    rw [hrest] at h
    cases h
    exact ⟨⟨hs.cluster, fun w hw => hs.rest w (by simp [hrest, hw])⟩,
      hgiven a (hs.rest a (by simp [hrest])) a⟩

theorem longOption_about {args : List Word} {s s' : Scan} {body : Word} {e : Event}
    (hs : s.Of args) (helem : s.elem.take 2 = dashes) (hbody : Within args body)
    (h : longOption T s body = .event e s') : s'.Of args ∧ About T args (e, s'.prev) := by
  have hs₁ : ({ s with prev := s.elem } : Scan).Of args := ⟨hs.cluster, hs.rest⟩
  simp only [longOption] at h
  cases hname : lookup T.long (nameOf body) with
  | none =>
    simp only [hname] at h
    cases h
    exact ⟨hs₁, Or.inl rfl⟩
  | some o =>
    have ho := lookup_mem hname
    simp only [hname] at h
    split at h
    · next c arg hdrop =>
      split_ifs at h
      · cases h
        have harg : Within args arg :=
          hbody.suffix ((List.suffix_cons c arg).trans (hdrop ▸ List.drop_suffix _ _))
        refine ⟨hs₁, LongOption.about ho (fun a ha => ?_) _⟩
        exact Option.some.inj ha ▸ harg
      · cases h
        exact ⟨hs₁, Or.inr (Or.inl helem)⟩
    · split_ifs at h
      · have hgiven : ∀ a ∈ args, ∀ opt, About T args (o.event (some a), opt) := by
          intro a ha opt
          refine LongOption.about ho (fun b hb => ?_) opt
          exact ⟨a, ha, Option.some.inj hb ▸ List.suffix_refl _⟩
        have hmissing : About T args (.missing o.val, s.elem) := Or.inl helem
        exact takeArg_about hs₁ hgiven hmissing h
      · cases h
        exact ⟨hs₁, LongOption.about ho (by simp) _⟩

theorem letter_about {args : List Word} {s s' : Scan} {c : UInt8} {cs : Word} {e : Event}
    (hcs : Within args (c :: cs)) (hrest : ∀ w ∈ s.rest, w ∈ args)
    (h : letter T s c cs = .event e s') : s'.Of args ∧ About T args (e, s'.prev) := by
  simp only [letter] at h
  generalize hs₁ : (if cs = [] then { s with prev := s.elem, cluster := [] }
    else { s with cluster := cs } : Scan) = s₁ at h
  have hwithin : Within args cs := hcs.suffix (List.suffix_cons c cs)
  have hof : s₁.Of args := by
    rw [← hs₁]
    split_ifs
    · exact ⟨fun hne => absurd rfl hne, hrest⟩
    · exact ⟨fun _ => hwithin, hrest⟩
  cases hc : T.short c with
  | none =>
    simp only [hc] at h
    cases h
    obtain ⟨w, hw, hsuffix⟩ := hcs
    exact ⟨hof, Or.inr (Or.inr ⟨c, rfl, w, hw, hsuffix.subset List.mem_cons_self⟩)⟩
  | some b =>
    have hletter : ∃ d : UInt8, c.toNat = d.toNat ∧ T.short d ≠ none := ⟨c, rfl, by simp [hc]⟩
    cases b with
    | false =>
      simp only [hc] at h
      cases h
      exact ⟨hof, Or.inl hletter, by simp⟩
    | true =>
      simp only [hc] at h
      split_ifs at h
      · have hgiven : ∀ a ∈ args, ∀ opt, About T args (.option c.toNat (some a), opt) := by
          refine fun a ha opt => ⟨Or.inl hletter, fun b hb => ?_⟩
          exact ⟨a, ha, Option.some.inj hb ▸ List.suffix_refl _⟩
        have hmissing : About T args (.missing c.toNat, s₁.prev) := Or.inr hletter
        exact takeArg_about hof hgiven hmissing h
      · cases h
        refine ⟨⟨fun hne => absurd rfl hne, hof.rest⟩, Or.inl hletter, fun a ha => ?_⟩
        exact Option.some.inj ha ▸ hwithin

theorem element_about {args : List Word} {prev : Word} {operands rest : List Word} {s' : Scan}
    {e : Event} (hrest : ∀ w ∈ rest, w ∈ args) (h : element T prev operands rest = .event e s') :
    s'.Of args ∧ About T args (e, s'.prev) := by
  induction rest generalizing operands with
  | nil => cases h
  | cons a rest ih =>
    have hbehind : ∀ w ∈ rest, w ∈ args := fun w hw => hrest w (List.mem_cons_of_mem a hw)
    have ha : Within args a := ⟨a, hrest a List.mem_cons_self, List.suffix_refl a⟩
    rw [element] at h
    split_ifs at h with hdash hoption
    · obtain ⟨c, cs, rfl⟩ := hoption.eq_cons
      have hcs : Within args (c :: cs) := ha.suffix (List.suffix_cons 45 (c :: cs))
      dsimp only at h
      split_ifs at h with hc
      · subst hc
        exact longOption_about ⟨fun hne => absurd rfl hne, hbehind⟩ rfl
          (hcs.suffix (List.suffix_cons 45 cs)) h
      · exact letter_about hcs hbehind h
    · exact ih hbehind h

theorem next_about {args : List Word} {s s' : Scan} {e : Event} (hs : s.Of args)
    (h : next T s = .event e s') : s'.Of args ∧ About T args (e, s'.prev) := by
  rw [next] at h
  cases hcluster : s.cluster with
  | nil =>
    rw [hcluster] at h
    exact element_about hs.rest h
  | cons c cs =>
    rw [hcluster] at h
    exact letter_about (hcluster ▸ hs.cluster (by simp [hcluster])) hs.rest h

theorem Runs.about {args : List Word} {s : Scan} {tr : List (Event × Word)}
    {operands : List Word} (h : Runs T s tr operands) (hs : s.Of args) :
    ∀ x ∈ tr, About T args x := by
  induction h with
  | stop => simp
  | event hnext _ ih =>
    obtain ⟨hs', hx⟩ := next_about hs hnext
    intro x hmem
    rcases List.mem_cons.mp hmem with rfl | hmem
    · exact hx
    · exact ih hs' x hmem

end GetOpt
