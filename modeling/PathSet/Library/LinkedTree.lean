import PathSet.Library.TernaryTree
import PathSet.Library.Pointer

/-!
Ternary search trees stored as cells linked by pointers. A pointer is the
position of its cell counted from one, zero is the null pointer. A link names
the place a pointer is stored in, so that an insertion can descend to a null
link first and write to it afterwards.

The end mark has no `eq` link: its word is free for a value. `Rep` therefore
reads that word as a link only under the other symbols.
-/

namespace LinkedTree
open TernaryTree Pointer

structure Cell (σ : Type) where
  sym : σ
  lo : Nat
  hi : Nat
  eq : Nat
  deriving DecidableEq, Repr

inductive Link where
  | root
  | lo (p : Nat)
  | hi (p : Nat)
  | eq (p : Nat)
  deriving DecidableEq, Repr

structure Store (σ : Type) where
  root : Nat
  cells : List (Cell σ)

namespace Link

def owner : Link → Nat
  | .root => 0
  | .lo p => p
  | .hi p => p
  | .eq p => p

end Link

section
variable {σ : Type}

def assignCells (cells : List (Cell σ)) (v : Nat) : Link → List (Cell σ)
  | .root => cells
  | .lo p => update cells (fun c => { c with lo := v }) p
  | .hi p => update cells (fun c => { c with hi := v }) p
  | .eq p => update cells (fun c => { c with eq := v }) p

def Store.assign (s : Store σ) (l : Link) (v : Nat) : Store σ :=
  ⟨if l = .root then v else s.root, assignCells s.cells v l⟩

def Store.push (s : Store σ) (l : Link) (k : σ) : Store σ :=
  let s := s.assign l (s.cells.length + 1)
  ⟨s.root, s.cells ++ [⟨k, 0, 0, 0⟩]⟩

def Store.grow (s : Store σ) (l : Link) : List σ → Store σ
  | [] => s
  | k :: ks => (s.push l k).grow (.eq (s.cells.length + 1)) ks

@[simp] theorem length_assignCells (cells : List (Cell σ)) (v : Nat) (l : Link) :
    (assignCells cells v l).length = cells.length := by
  cases l <;> simp [assignCells]

theorem deref_assignCells_of_ne {cells : List (Cell σ)} {v : Nat} {l : Link} {p : Nat}
    (h : p ≠ l.owner) : deref (assignCells cells v l) p = deref cells p := by
  cases l with
  | root => rfl
  | lo q => simp only [assignCells, deref_update, if_neg (Ne.symm h : q ≠ p)]
  | hi q => simp only [assignCells, deref_update, if_neg (Ne.symm h : q ≠ p)]
  | eq q => simp only [assignCells, deref_update, if_neg (Ne.symm h : q ≠ p)]

def chainCells : Nat → List σ → List (Cell σ)
  | _, [] => []
  | n, k :: ks => ⟨k, 0, 0, if ks = [] then 0 else n + 2⟩ :: chainCells (n + 1) ks

theorem length_chainCells (n : Nat) (ks : List σ) : (chainCells n ks).length = ks.length := by
  induction ks generalizing n with
  | nil => rfl
  | cons k ks ih => simp [chainCells, ih]

theorem grow_eq {s : Store σ} {l : Link} {ks : List σ} (hks : ks ≠ []) :
    s.grow l ks = ⟨if l = .root then s.cells.length + 1 else s.root,
      assignCells s.cells (s.cells.length + 1) l ++ chainCells s.cells.length ks⟩ := by
  induction ks generalizing s l with
  | nil => exact absurd rfl hks
  | cons k ks ih =>
    by_cases hnil : ks = []
    · subst hnil
      rfl
    · have hcells : (s.push l k).cells =
          assignCells s.cells (s.cells.length + 1) l ++ [⟨k, 0, 0, 0⟩] := rfl
      have hlen : (s.push l k).cells.length = s.cells.length + 1 := by simp [hcells]
      have hlast := update_append_last (assignCells s.cells (s.cells.length + 1) l)
        (⟨k, 0, 0, 0⟩ : Cell σ) (fun c => { c with eq := s.cells.length + 2 })
      rw [length_assignCells] at hlast
      rw [Store.grow, ih hnil, hlen, hcells]
      simp only [reduceCtorEq, if_false, chainCells, hnil]
      refine congrArg (Store.mk _) ?_
      rw [show assignCells (assignCells s.cells (s.cells.length + 1) l ++ [⟨k, 0, 0, 0⟩])
          (s.cells.length + 1 + 1) (.eq (s.cells.length + 1)) = _ from hlast, List.append_assoc]
      rfl

def Cell.Agree (e : σ) (c d : Cell σ) : Prop :=
  c.sym = d.sym ∧ c.lo = d.lo ∧ c.hi = d.hi ∧ (c.sym ≠ e → c.eq = d.eq)

theorem Cell.Agree.refl (e : σ) (c : Cell σ) : c.Agree e c := ⟨rfl, rfl, rfl, fun _ => rfl⟩

variable [DecidableEq σ]

def Rep (e : σ) (cells : List (Cell σ)) : SearchTree σ → Nat → Prop
  | .nil, p => p = 0
  | .node id s lo eq hi, p => p = id ∧ ∃ c, deref cells p = some c ∧ c.sym = s ∧
      Rep e cells lo c.lo ∧ Rep e cells hi c.hi ∧
      if s = e then eq = .nil else Rep e cells eq c.eq

theorem rep_congr {e : σ} {cells cells' : List (Cell σ)} {t : SearchTree σ} {p : Nat}
    (h : Rep e cells t p)
    (agree : ∀ i ∈ ids t, ∀ c, deref cells i = some c →
      ∃ d, deref cells' i = some d ∧ c.Agree e d) : Rep e cells' t p := by
  induction t generalizing p with
  | nil => exact h
  | node id s lo eq hi ihl ihe ihh =>
    obtain ⟨rfl, c, hc, hs, hlo, hhi, heq⟩ := h
    obtain ⟨d, hd, hsym, hl, hh, he⟩ := agree p (by simp [ids]) c hc
    refine ⟨rfl, d, hd, hsym ▸ hs, ?_, ?_, ?_⟩
    · exact hl ▸ ihl hlo (fun i hi => agree i (by simp [ids, hi]))
    · exact hh ▸ ihh hhi (fun i hi => agree i (by simp [ids, hi]))
    · by_cases hse : s = e
      · simpa only [hse, if_true] using heq
      · simp only [hse, if_false] at heq ⊢
        exact he (hs ▸ hse) ▸ ihe heq (fun i hi => agree i (by simp [ids, hi]))

theorem rep_frame {e : σ} {cells cells' : List (Cell σ)} {t : SearchTree σ} {p : Nat}
    (h : Rep e cells t p)
    (same : ∀ i ∈ ids t, ∀ c, deref cells i = some c → deref cells' i = some c) :
    Rep e cells' t p :=
  rep_congr h (fun i hi c hc => ⟨c, same i hi c hc, Cell.Agree.refl e c⟩)

theorem rep_ids_bound {e : σ} {cells : List (Cell σ)} {t : SearchTree σ} {p : Nat}
    (h : Rep e cells t p) {i : Nat} (hi : i ∈ ids t) : 0 < i ∧ i ≤ cells.length := by
  induction t generalizing p with
  | nil => simp [ids] at hi
  | node id s lo eq hi' ihl ihe ihh =>
    obtain ⟨rfl, c, hc, hs, hlo, hhi, heq⟩ := h
    simp only [ids, List.mem_cons, List.mem_append] at hi
    rcases hi with rfl | (hi | hi) | hi
    · exact deref_le_length hc
    · exact ihl hlo hi
    · by_cases hse : s = e
      · simp only [hse, if_true] at heq
        simp [heq, ids] at hi
      · simp only [hse, if_false] at heq
        exact ihe heq hi
    · exact ihh hhi hi

theorem rep_root_le {e : σ} {cells : List (Cell σ)} {t : SearchTree σ} {p : Nat}
    (h : Rep e cells t p) : p ≤ cells.length := by
  cases t with
  | nil =>
    obtain rfl : p = 0 := h
    exact Nat.zero_le _
  | node id s lo eq hi =>
    obtain ⟨rfl, c, hc, -⟩ := h
    exact (deref_le_length hc).2

theorem rep_links_le {e : σ} {cells : List (Cell σ)} {t : SearchTree σ} {p i : Nat} {c : Cell σ}
    (h : Rep e cells t p) (hi : i ∈ ids t) (hc : deref cells i = some c) :
    c.lo ≤ cells.length ∧ c.hi ≤ cells.length ∧ (c.sym ≠ e → c.eq ≤ cells.length) := by
  induction t generalizing p with
  | nil => simp [ids] at hi
  | node id s lo eq hi' ihl ihe ihh =>
    obtain ⟨rfl, d, hd, hs, hlo, hhi, heq⟩ := h
    simp only [ids, List.mem_cons, List.mem_append] at hi
    rcases hi with rfl | (hi | hi) | hi
    · obtain rfl := Option.some.inj (hc.symm.trans hd)
      refine ⟨rep_root_le hlo, rep_root_le hhi, fun hse => ?_⟩
      rw [if_neg (hs ▸ hse)] at heq
      exact rep_root_le heq
    · exact ihl hlo hi
    · by_cases hse : s = e
      · simp only [hse, if_true] at heq
        simp [heq, ids] at hi
      · simp only [hse, if_false] at heq
        exact ihe heq hi
    · exact ihh hhi hi

/-- The tree the cells hold under a pointer. -/
def decode (e : σ) (cells : List (Cell σ)) : Nat → Nat → SearchTree σ
  | 0, _ => .nil
  | fuel + 1, p =>
      match deref cells p with
      | none => .nil
      | some c => .node p c.sym (decode e cells fuel c.lo)
          (if c.sym = e then .nil else decode e cells fuel c.eq) (decode e cells fuel c.hi)

theorem decode_eq_of_rep {e : σ} {cells : List (Cell σ)} {t : SearchTree σ} {p fuel : Nat}
    (h : Rep e cells t p) (hf : size t ≤ fuel) : decode e cells fuel p = t := by
  induction t generalizing p fuel with
  | nil =>
    obtain rfl : p = 0 := h
    cases fuel <;> rfl
  | node id s lo eq hi ihl ihe ihh =>
    obtain ⟨rfl, c, hc, rfl, hlo, hhi, heq⟩ := h
    cases fuel with
    | zero => simp [size] at hf
    | succ fuel =>
      simp only [size] at hf
      have hl : decode e cells fuel c.lo = lo := ihl hlo (by omega)
      have hh : decode e cells fuel c.hi = hi := ihh hhi (by omega)
      simp only [decode, hc, hl, hh]
      by_cases hse : c.sym = e
      · simp only [hse, if_true] at heq ⊢
        rw [heq]
      · simp only [hse, if_false] at heq ⊢
        rw [ihe heq (by omega)]

inductive Place (σ : Type) where
  | found (p : Nat)
  | hole (l : Link) (ks : List σ)

variable {ρ : Type} [LinearOrder ρ] (rank : σ → ρ)

/-- Follow a key to the node of its end mark, or to the null link where the rest
of the key is missing. -/
def seek (e : σ) : SearchTree σ → Link → List σ → Place σ
  | .nil, l, ks => .hole l ks
  | .node _ _ _ _ _, l, [] => .hole l []
  | .node id s lo eq hi, _, k :: ks =>
      if k = s then
        if k = e then .found id else seek e eq (.eq id) ks
      else if rank k < rank s then seek e lo (.lo id) (k :: ks)
      else seek e hi (.hi id) (k :: ks)

theorem seek_found_iff {e : σ} {t : SearchTree σ} {l : Link} {ks : List σ} {i : Nat}
    (hs : Sentence e ks) :
    seek rank e t l ks = .found i ↔ find rank t ks = some i := by
  induction t generalizing l ks with
  | nil => simp [seek]
  | node id s lo eq hi ihl ihe ihh =>
    cases ks with
    | nil => exact absurd rfl hs.ne_nil
    | cons k ks =>
      simp only [seek, find]
      by_cases hk : k = s
      · simp only [hk, if_true]
        rcases sentence_cons.mp hs with ⟨rfl, rfl⟩ | ⟨hke, hs⟩
        · simp [hk]
        · rw [if_neg (hk ▸ hke), if_neg hs.ne_nil]
          exact ihe hs
      · simp only [hk, if_false]
        split_ifs
        · exact ihl hs
        · exact ihh hs

theorem seek_hole {e : σ} {t : SearchTree σ} {l l' : Link} {ks ks' : List σ}
    (hs : Sentence e ks) (h : seek rank e t l ks = .hole l' ks') :
    Sentence e ks' ∧ ks'.length = ks.length - depth rank t ks ∧
      ((t = .nil ∧ l' = l) ∨ (t ≠ .nil ∧ l'.owner ∈ ids t ∧ l' ≠ .root)) := by
  induction t generalizing l ks with
  | nil =>
    obtain ⟨rfl, rfl⟩ : l = l' ∧ ks = ks' := by simpa [seek] using h
    exact ⟨hs, by simp, Or.inl ⟨rfl, rfl⟩⟩
  | node id s lo eq hi ihl ihe ihh =>
    cases ks with
    | nil => exact absurd rfl hs.ne_nil
    | cons k ks =>
      simp only [seek] at h
      by_cases hk : k = s
      · simp only [hk, if_true] at h
        rcases sentence_cons.mp hs with ⟨rfl, rfl⟩ | ⟨hke, hs⟩
        · simp [hk] at h
        · rw [if_neg (hk ▸ hke)] at h
          obtain ⟨hs', hlen, hl⟩ := ihe hs h
          refine ⟨hs', by simp [depth, hk, hlen], Or.inr ⟨by simp, ?_⟩⟩
          rcases hl with ⟨-, rfl⟩ | ⟨-, hown, hne⟩
          · simp [ids, Link.owner]
          · simp [ids, hown, hne]
      · simp only [hk, if_false] at h
        by_cases hlt : rank k < rank s
        · simp only [hlt, if_true] at h
          obtain ⟨hs', hlen, hl⟩ := ihl hs h
          refine ⟨hs', by simp [depth, hk, hlt, hlen], Or.inr ⟨by simp, ?_⟩⟩
          rcases hl with ⟨-, rfl⟩ | ⟨-, hown, hne⟩
          · simp [ids, Link.owner]
          · simp [ids, hown, hne]
        · simp only [hlt, if_false] at h
          obtain ⟨hs', hlen, hl⟩ := ihh hs h
          refine ⟨hs', by simp [depth, hk, hlt, hlen], Or.inr ⟨by simp, ?_⟩⟩
          rcases hl with ⟨-, rfl⟩ | ⟨-, hown, hne⟩
          · simp [ids, Link.owner]
          · simp [ids, hown, hne]

theorem rep_chain {e : σ} {n : Nat} {ks : List σ} (pre : List (Cell σ)) (hpre : pre.length = n)
    (hs : Sentence e ks) : Rep e (pre ++ chainCells n ks) (chain n ks) (n + 1) := by
  induction ks generalizing n pre with
  | nil => exact absurd rfl hs.ne_nil
  | cons k ks ih =>
    refine ⟨rfl, ⟨k, 0, 0, if ks = [] then 0 else n + 2⟩, ?_, rfl, rfl, rfl, ?_⟩
    · simp [deref, chainCells, ← hpre]
    · rcases sentence_cons.mp hs with ⟨rfl, rfl⟩ | ⟨hk, hs⟩
      · simp [chain]
      · have hlen : (pre ++ [(⟨k, 0, 0, if ks = [] then 0 else n + 2⟩ : Cell σ)]).length
            = n + 1 := by
          simp [hpre]
        have h := ih _ hlen hs
        simpa [hk, chainCells, hs.ne_nil] using h

theorem rep_addKey {e : σ} {cells : List (Cell σ)} {t : SearchTree σ} {p : Nat} {l l' : Link}
    {ks ks' : List σ} (hrep : Rep e cells t p) (hnd : (ids t).Nodup)
    (hl : l.owner ∉ ids t) (hs : Sentence e ks)
    (h : seek rank e t l ks = .hole l' ks') :
    Rep e (assignCells cells (cells.length + 1) l' ++ chainCells cells.length ks')
      (addKey rank cells.length t ks) (if t = .nil then cells.length + 1 else p) := by
  induction t generalizing p l ks with
  | nil =>
    obtain ⟨rfl, rfl⟩ : l = l' ∧ ks = ks' := by simpa [seek] using h
    simpa using rep_chain (assignCells cells (cells.length + 1) l) (by simp) hs
  | node id s lo eq hi ihl ihe ihh =>
    obtain ⟨rfl, c, hc, rfl, hlo, hhi, heq⟩ := hrep
    simp only [ids, List.nodup_cons, List.mem_append, not_or, List.nodup_append] at hnd
    obtain ⟨⟨⟨hidlo, hideq⟩, hidhi⟩, ⟨hndlo, hndeq, hdle⟩, hndhi, hdh⟩ := hnd
    -- a subtree whose cells are not the one written to is unchanged
    have frame : ∀ {u : SearchTree σ} {q : Nat}, Rep e cells u q → l'.owner ∉ ids u →
        Rep e (assignCells cells (cells.length + 1) l' ++ chainCells cells.length ks') u q := by
      intro u q hu hown
      refine rep_frame hu (fun i hi d hd => deref_append_left _ ?_)
      rw [deref_assignCells_of_ne (fun he => hown (he ▸ hi)), hd]
    have here : l'.owner ≠ p →
        deref (assignCells cells (cells.length + 1) l' ++ chainCells cells.length ks') p
          = some c := by
      intro hne
      refine deref_append_left _ ?_
      rw [deref_assignCells_of_ne (Ne.symm hne), hc]
    have middle (hown : l'.owner ∉ ids eq) : if c.sym = e then eq = .nil else
        Rep e (assignCells cells (cells.length + 1) l' ++ chainCells cells.length ks') eq c.eq := by
      by_cases hse : c.sym = e
      · simpa only [hse, if_true] using heq
      · simp only [hse, if_false] at heq ⊢
        exact frame heq hown
    cases ks with
    | nil => exact absurd rfl hs.ne_nil
    | cons k ks =>
      simp only [seek] at h
      simp only [addKey, reduceCtorEq, if_false]
      by_cases hk : k = c.sym
      · simp only [hk, if_true] at h ⊢
        rcases sentence_cons.mp hs with ⟨rfl, rfl⟩ | ⟨hke, hs⟩
        · simp [hk] at h
        · rw [if_neg (hk ▸ hke)] at h
          rw [if_neg (hk ▸ hke)] at heq
          have hsub := ihe heq hndeq (show (Link.eq p).owner ∉ ids eq from hideq) hs h
          obtain ⟨-, -, hown⟩ := seek_hole rank hs h
          rcases hown with ⟨rfl, rfl⟩ | ⟨hne, hown, -⟩
          · refine ⟨rfl, { c with eq := cells.length + 1 }, ?_, rfl, frame hlo hidlo,
              frame hhi hidhi, ?_⟩
            · refine deref_append_left _ ?_
              simp [assignCells, deref_update, hc]
            · simpa [hk ▸ hke] using hsub
          · have hp : l'.owner ≠ p := fun he => hideq (he ▸ hown)
            refine ⟨rfl, c, here hp, rfl, frame hlo (fun hm => ?_), frame hhi (fun hm => ?_), ?_⟩
            · exact hdle _ hm _ hown rfl
            · exact hdh _ (Or.inr hown) _ hm rfl
            · simpa [hk ▸ hke, hne] using hsub
      · simp only [hk, if_false] at h ⊢
        by_cases hlt : rank k < rank c.sym
        · simp only [hlt, if_true] at h ⊢
          have hsub := ihl hlo hndlo (show (Link.lo p).owner ∉ ids lo from hidlo) hs h
          obtain ⟨-, -, hown⟩ := seek_hole rank hs h
          rcases hown with ⟨rfl, rfl⟩ | ⟨hne, hown, -⟩
          · refine ⟨rfl, { c with lo := cells.length + 1 }, ?_, rfl, by simpa using hsub,
              frame hhi hidhi, ?_⟩
            · refine deref_append_left _ ?_
              simp [assignCells, deref_update, hc]
            · exact middle hideq
          · have hp : l'.owner ≠ p := fun he => hidlo (he ▸ hown)
            refine ⟨rfl, c, here hp, rfl, by simpa [hne] using hsub, frame hhi (fun hm => ?_), ?_⟩
            · exact hdh _ (Or.inl hown) _ hm rfl
            · exact middle fun hm => hdle _ hown _ hm rfl
        · simp only [hlt, if_false] at h ⊢
          have hsub := ihh hhi hndhi (show (Link.hi p).owner ∉ ids hi from hidhi) hs h
          obtain ⟨-, -, hown⟩ := seek_hole rank hs h
          rcases hown with ⟨rfl, rfl⟩ | ⟨hne, hown, -⟩
          · refine ⟨rfl, { c with hi := cells.length + 1 }, ?_, rfl, frame hlo hidlo,
              by simpa using hsub, ?_⟩
            · refine deref_append_left _ ?_
              simp [assignCells, deref_update, hc]
            · exact middle hideq
          · have hp : l'.owner ≠ p := fun he => hidhi (he ▸ hown)
            refine ⟨rfl, c, here hp, rfl, frame hlo (fun hm => ?_), by simpa [hne] using hsub, ?_⟩
            · exact hdh _ (Or.inl hm) _ hown rfl
            · exact middle fun hm => hdh _ (Or.inr hm) _ hown rfl

/-- The cells are exactly those of the tree, each reached once. -/
def Layout (e : σ) (s : Store σ) (t : SearchTree σ) : Prop :=
  Rep e s.cells t s.root ∧ (ids t).Perm (List.range' 1 s.cells.length)

theorem Layout.nodup {e : σ} {s : Store σ} {t : SearchTree σ} (h : Layout e s t) : (ids t).Nodup :=
  h.2.nodup_iff.mpr List.nodup_range'

theorem Layout.size {e : σ} {s : Store σ} {t : SearchTree σ} (h : Layout e s t) :
    size t = s.cells.length := by
  have := h.2.length_eq
  simpa using this

theorem Layout.mem_ids {e : σ} {s : Store σ} {t : SearchTree σ} (h : Layout e s t) {p : Nat} {c : Cell σ}
    (hc : deref s.cells p = some c) : p ∈ ids t := by
  have hp := deref_le_length hc
  refine h.2.mem_iff.mpr (List.mem_range'_1.mpr ?_)
  omega

theorem layout_empty (e : σ) : Layout e ⟨0, []⟩ .nil := ⟨rfl, List.Perm.refl _⟩

theorem layout_grow {e : σ} {s : Store σ} {t : SearchTree σ} {l : Link} {ks ks' : List σ}
    (h : Layout e s t) (hs : Sentence e ks)
    (hhole : seek rank e t .root ks = .hole l ks') :
    Layout e (s.grow l ks') (addKey rank s.cells.length t ks) := by
  obtain ⟨hs', hlen, hown⟩ := seek_hole rank hs hhole
  have hroot : Link.root.owner ∉ ids t := by
    intro hmem
    have := rep_ids_bound h.1 hmem
    simp [Link.owner] at this
  have hrep := rep_addKey rank h.1 h.nodup hroot hs hhole
  rw [grow_eq hs'.ne_nil]
  constructor
  · rcases hown with ⟨rfl, rfl⟩ | ⟨hne, -, hl⟩
    · simpa using hrep
    · simpa [hne, hl] using hrep
  · refine (ids_addKey_perm rank _ t ks).trans ?_
    simp only [List.length_append, length_assignCells, length_chainCells, hlen]
    refine (h.2.append_right _).trans (List.Perm.of_eq ?_)
    rw [← List.range'_append_1, Nat.add_comm 1]

theorem find_of_hole {e : σ} {t : SearchTree σ} {l l' : Link} {ks ks' : List σ} (hs : Sentence e ks)
    (hhole : seek rank e t l ks = .hole l' ks') : find rank t ks = none := by
  cases hf : find rank t ks with
  | none => rfl
  | some i =>
    rw [(seek_found_iff rank hs).mpr hf] at hhole
    simp at hhole

theorem find_grown {e : σ} {s : Store σ} {t : SearchTree σ} {l : Link} {ks ks' qs : List σ}
    (hs : Sentence e ks) (hhole : seek rank e t .root ks = .hole l ks') (hq : Sentence e qs) :
    find rank (addKey rank s.cells.length t ks) qs =
      if qs = ks then some (s.cells.length + ks'.length) else find rank t qs := by
  rw [find_addKey_sentence rank _ hs hq (find_of_hole rank hs hhole),
    (seek_hole rank hs hhole).2.1]

def Store.word (s : Store σ) (p : Nat) : Nat := ((deref s.cells p).map Cell.eq).getD 0

def Store.setWord (s : Store σ) (p v : Nat) : Store σ :=
  ⟨s.root, update s.cells (fun c => { c with eq := v }) p⟩

omit [DecidableEq σ] in
theorem word_setWord {s : Store σ} {p v : Nat} (h : (deref s.cells p).isSome) :
    (s.setWord p v).word p = v := by
  obtain ⟨c, hc⟩ := Option.isSome_iff_exists.mp h
  simp [Store.word, Store.setWord, deref_update, hc]

omit [DecidableEq σ] in
theorem word_setWord_ne {s : Store σ} {p q v : Nat} (h : p ≠ q) :
    (s.setWord p v).word q = s.word q := by
  simp [Store.word, Store.setWord, deref_update, h]

theorem layout_setWord {e : σ} {s : Store σ} {t : SearchTree σ} {p v : Nat} (h : Layout e s t)
    (hend : ∀ c, deref s.cells p = some c → c.sym = e) : Layout e (s.setWord p v) t := by
  refine ⟨rep_congr h.1 (fun i _ c hc => ?_), by simpa [Store.setWord] using h.2⟩
  simp only [Store.setWord, deref_update, hc]
  by_cases hp : p = i
  · subst hp
    exact ⟨{ c with eq := v }, by simp, rfl, rfl, rfl, fun hne => absurd (hend c hc) hne⟩
  · exact ⟨c, by simp [hp], Cell.Agree.refl e c⟩

theorem end_of_find {e : σ} {cells : List (Cell σ)} {t : SearchTree σ} {p : Nat} {ks : List σ} {i : Nat}
    (h : Rep e cells t p) (hs : Sentence e ks) (hf : find rank t ks = some i) :
    ∃ c, deref cells i = some c ∧ c.sym = e := by
  induction t generalizing p ks with
  | nil => simp at hf
  | node id s lo eq hi ihl ihe ihh =>
    obtain ⟨rfl, c, hc, rfl, hlo, hhi, heq⟩ := h
    cases ks with
    | nil => exact absurd rfl hs.ne_nil
    | cons k ks =>
      rcases sentence_cons.mp hs with ⟨rfl, rfl⟩ | ⟨hke, hs'⟩
      · rcases find_node_cases rank hf with ⟨rfl, -, rfl⟩ | ⟨rfl, h⟩ | h | h
        · exact ⟨c, hc, rfl⟩
        · simp at h
        · exact ihl hlo hs h
        · exact ihh hhi hs h
      · rcases find_node_cases rank hf with ⟨rfl, rfl, rfl⟩ | ⟨rfl, h⟩ | h | h
        · exact absurd rfl hs'.ne_nil
        · exact ihe (by simpa [hke] using heq) hs' h
        · exact ihl hlo hs h
        · exact ihh hhi hs h

theorem hole_sym {e : σ} {cells : List (Cell σ)} {t : SearchTree σ} {p q : Nat} {l : Link}
    {ks ks' : List σ} (h : Rep e cells t p) (hs : Sentence e ks)
    (hhole : seek rank e t l ks = .hole (.eq q) ks') (hl : l ≠ .eq q) :
    ∃ c, deref cells q = some c ∧ c.sym ≠ e := by
  induction t generalizing p ks l with
  | nil =>
    simp only [seek, Place.hole.injEq] at hhole
    exact absurd hhole.1 hl
  | node id s lo eq hi ihl ihe ihh =>
    obtain ⟨rfl, c, hc, rfl, hlo, hhi, heq⟩ := h
    cases ks with
    | nil => exact absurd rfl hs.ne_nil
    | cons k ks =>
      simp only [seek] at hhole
      split_ifs at hhole with hk hke hlt
      · subst hk
        have hs' : Sentence e ks := by
          rcases sentence_cons.mp hs with ⟨h, -⟩ | ⟨-, h⟩
          · exact absurd h hke
          · exact h
        rw [if_neg hke] at heq
        by_cases hq : p = q
        · exact ⟨c, hq ▸ hc, hke⟩
        · exact ihe heq hs' hhole (by simpa using hq)
      · exact ihl hlo hs hhole (by simp)
      · exact ihh hhi hs hhole (by simp)

theorem word_grow {e : σ} {s : Store σ} {t : SearchTree σ} {l : Link} {ks ks' qs : List σ} {i : Nat}
    (h : Layout e s t) (hs : Sentence e ks) (hhole : seek rank e t .root ks = .hole l ks')
    (hq : Sentence e qs) (hf : find rank t qs = some i) : (s.grow l ks').word i = s.word i := by
  obtain ⟨c, hc, hsym⟩ := end_of_find rank h.1 hq hf
  have hl : l ≠ .eq i := by
    rintro rfl
    obtain ⟨d, hd, hne⟩ := hole_sym rank h.1 hs hhole (by simp)
    rw [hc] at hd
    exact hne (Option.some.inj hd ▸ hsym)
  rw [grow_eq (seek_hole rank hs hhole).1.ne_nil]
  have hkeep : ∃ d, deref (assignCells s.cells (s.cells.length + 1) l) i = some d ∧
      d.eq = c.eq := by
    cases l with
    | root => exact ⟨c, hc, rfl⟩
    | lo q => by_cases hq : q = i <;> simp [assignCells, deref_update, hc, hq]
    | hi q => by_cases hq : q = i <;> simp [assignCells, deref_update, hc, hq]
    | eq q =>
      have hq : q ≠ i := fun hq => hl (hq ▸ rfl)
      simp [assignCells, deref_update, hc, hq]
  obtain ⟨d, hd, hdeq⟩ := hkeep
  simp [Store.word, deref_append_left _ hd, hc, hdeq]

end

end LinkedTree
