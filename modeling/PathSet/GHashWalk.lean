import PathSet.GHashDelete

/-!
The functions of the chained table that search and walk it, and those that empty it. A walk
takes the buckets in their order, and the head of each before its overflow entries. The
table has no function that frees the data of its entries.
-/

namespace PathSet
open Fallible Pointer Buckets Recycled

namespace GHashEntries

section
variable (mix : Bytes → Nat) (kind : GHashKind)

def lookupNext (t : GHashEntries) (c : GHashNode) : List Nat → Outcome (Option Nat)
  | [] => .ok none
  | e :: es => do
      let d ← readEntry t.entry e
      if GHash.eq kind c (← t.node d) then pure d else lookupNext t c es

def hashLookup (t : GHashEntries) (c : GHashNode) : Outcome (Option Nat) := do
  let (_, b) ← safeHasher mix kind t.bucket c
  if b.data = none then pure none
  else if GHash.eq kind c (← t.node b.data) then pure b.data
  else lookupNext kind t c b.next

def firstData : List EntryBucket → Option Nat
  | [] => none
  | b :: bs => if b.data ≠ none then b.data else firstData bs

def hashGetFirst (t : GHashEntries) : Outcome (Option Nat) :=
  if t.nEntries = 0 then .ok none
  else
    match firstData t.bucket with
    | none => .error .abort
    | some p => .ok (some p)

def nextInChain (t : GHashEntries) (p : Nat) : Option Nat → List Nat → Outcome (Option (Option Nat))
  | _, [] => .ok none
  | d, e :: es => do
      let next ← readEntry t.entry e
      if d = some p then pure (some next) else nextInChain t p next es

def hashGetNext (t : GHashEntries) (p : Nat) : Outcome (Option Nat) := do
  let c ← t.node (some p)
  let (j, b) ← safeHasher mix kind t.bucket c
  match ← nextInChain t p b.data b.next with
  | some d => pure d
  | none => pure (firstData (t.bucket.drop (j + 1)))

def walkFrom (t : GHashEntries) : Nat → Option Nat → Outcome (List Nat)
  | _, none => .ok []
  | 0, some _ => .error .hang
  | fuel + 1, some p => do
      let rest ← walkFrom t fuel (← hashGetNext mix kind t p)
      pure (p :: rest)

def walk (t : GHashEntries) : Outcome (List Nat) := do
  walkFrom mix kind t t.nEntries (← hashGetFirst t)

end

section
variable {σ : Type} (processor : σ → Option Nat → σ × Bool)

def forEachNext (t : GHashEntries) : σ → Nat → List Nat → Outcome (σ × Nat × Bool)
  | s, n, [] => .ok (s, n, true)
  | s, n, e :: es => do
      let (s, more) := processor s (← readEntry t.entry e)
      if more then forEachNext t s (n + 1) es else pure (s, n, false)

def forEachBucket (t : GHashEntries) : σ → Nat → List EntryBucket → Outcome (σ × Nat)
  | s, n, [] => .ok (s, n)
  | s, n, b :: bs =>
      if b.data = none then forEachBucket t s n bs
      else
        let (s, more) := processor s b.data
        if more then do
          let (s, n, more) ← forEachNext processor t s (n + 1) b.next
          if more then forEachBucket t s n bs else pure (s, n)
        else pure (s, n)

/-- `hash_do_for_each`: what the processor has made of its data, and how often it was
content. -/
def hashDoForEach (t : GHashEntries) (s : σ) : Outcome (σ × Nat) :=
  forEachBucket processor t s 0 t.bucket

end

/-- `hash_get_entries`, with the part of the buffer that was filled. -/
def hashGetEntries (t : GHashEntries) (bufferSize : Nat) : Outcome (List (Option Nat) × Nat) :=
  hashDoForEach (fun buffer d =>
    if bufferSize ≤ buffer.length then (buffer, false) else (buffer ++ [d], true)) t []

def hashGetMaxBucketLength (t : GHashEntries) : Nat :=
  t.bucket.foldl (fun m b => if b.data ≠ none ∧ m < b.next.length + 1 then b.next.length + 1 else m) 0

def hashTableOk (t : GHashEntries) : Bool :=
  let (nBucketsUsed, nEntries) := t.bucket.foldl (fun (u, n) b =>
    if b.data ≠ none then (u + 1, n + 1 + b.next.length) else (u, n)) (0, 0)
  nBucketsUsed = t.nBucketsUsed ∧ nEntries = t.nEntries

def clearBuckets (entry : Heap (Option Nat)) :
    List EntryBucket → Heap (Option Nat) × List EntryBucket
  | [] => (entry, [])
  | b :: bs =>
      if b.data ≠ none then
        let (entry, bs) := clearBuckets (entry.releaseAll none b.next) bs
        (entry, ⟨none, []⟩ :: bs)
      else
        let (entry, bs) := clearBuckets entry bs
        (entry, b :: bs)

def hashClear (t : GHashEntries) : GHashEntries :=
  let (entry, bucket) := clearBuckets t.entry t.bucket
  { t with entry := entry, bucket := bucket, nBucketsUsed := 0, nEntries := 0 }

/-- `free` of an entry, which must be one of those that are claimed. -/
def free (claimed : List Nat) (e : Nat) : Outcome (List Nat) :=
  if e ∈ claimed then .ok (claimed.erase e) else .error .stray

def freeAll (claimed : List Nat) : List Nat → Outcome (List Nat)
  | [] => .ok claimed
  | e :: es => do freeAll (← free claimed e) es

def freeBuckets (claimed : List Nat) : List EntryBucket → Outcome (List Nat)
  | [] => .ok claimed
  | b :: bs => do freeBuckets (← freeAll claimed b.next) bs

/-- `hash_free`, with the entries that are still claimed after it. -/
def hashFree (t : GHashEntries) : Outcome (List Nat) := do
  freeAll (← freeBuckets (List.range' 1 t.entry.cell.length) t.bucket) t.entry.free

variable {mix : Bytes → Nat} {kind : GHashKind} {t : GHashEntries} {ks : List Bytes}
variable {tbl : List (List Nat)}

theorem lookupNext_eq (t : GHashEntries) (c : GHashNode) (es : List Nat) :
    lookupNext kind t c es = scanNext kind t c es >>= fun r =>
      match r with
      | none => .ok none
      | some e => readEntry t.entry e := by
  induction es with
  | nil => rfl
  | cons e es ih =>
    rw [lookupNext, scanNext]
    cases hd : readEntry t.entry e with
    | error => rfl
    | ok d =>
      rw [ok_bind, ok_bind]
      cases hc : t.node d with
      | error => rfl
      | ok c' =>
        rw [ok_bind, ok_bind]
        split_ifs
        · simp only [pure_eq_ok, ok_bind, hd]
        · exact ih

/-- A search reads what `hash_find_entry` finds. -/
theorem hashLookup_eq (t : GHashEntries) (c : GHashNode) :
    hashLookup mix kind t c = hashFindEntry mix kind false t c >>= fun r =>
      match r.2.2 with
      | none => .ok none
      | some e => t.readData e := by
  rw [hashLookup, hashFindEntry]
  cases hs : safeHasher mix kind t.bucket c with
  | error => rfl
  | ok r =>
    obtain ⟨j, b⟩ := r
    have hj : t.bucket[j]? = some b := by
      unfold safeHasher at hs
      cases hb : t.bucket[GHashTable.hash mix kind c t.bucket.length]? with
      | none => simp [hb] at hs
      | some b' =>
        simp only [hb, Except.ok.injEq, Prod.mk.injEq] at hs
        obtain ⟨rfl, rfl⟩ := hs
        exact hb
    simp only [ok_bind, Bool.false_eq_true, if_false]
    split_ifs
    · rfl
    · cases hc : t.node b.data with
      | error => rfl
      | ok c' =>
        simp only [ok_bind]
        split_ifs
        · simp only [pure_eq_ok, ok_bind, readData, hj]
        · rw [lookupNext_eq]
          cases hscan : scanNext kind t c b.next with
          | error => rfl
          | ok r => cases r <;> rfl

theorem hashLookup_spec (h : Kept mix kind t ks tbl) {key text : Bytes}
    (htext : GHashTable.keyText kind key = text) :
    (∃ p ∈ items tbl, deref ks p = some text ∧
        hashLookup mix kind t (GHash.keyNode kind key) = .ok (some p)) ∨
      ((∀ p ∈ items tbl, deref ks p ≠ some text) ∧
        hashLookup mix kind t (GHash.keyNode kind key) = .ok none) := by
  obtain ⟨b, ps, hb, hps, hshow, hplace⟩ := place h htext
  have hmem : ∀ p ∈ ps, p ∈ items tbl := fun p hp =>
    List.mem_flatten.mpr ⟨ps, List.mem_of_getElem? hps, hp⟩
  rw [hashLookup_eq]
  cases hplace with
  | absent found hnone =>
    exact Or.inr ⟨(h.absent_iff hps).mp hnone, by rw [found, ok_bind]⟩
  | @head p ps hp found =>
    refine Or.inl ⟨p, hmem p (by simp), hp, ?_⟩
    simp only [found, ok_bind, readData, hb, hshow.1]
  | @overflow p q e ps₁ ps₂ es₁ es₂ hp hes hread hrest found =>
    refine Or.inl ⟨p, hmem p (by simp), hp, ?_⟩
    simp only [found, ok_bind, readData, readEntry_of hread]

theorem firstData_of_shown {entry : Heap (Option Nat)} {bs : List EntryBucket}
    {qss : List (List Nat)} (h : Shown entry bs qss) : firstData bs = (items qss).head? := by
  induction bs generalizing qss with
  | nil =>
    obtain rfl : qss = [] := List.length_eq_zero_iff.mp h.length.symm
    rfl
  | cons b bs ih =>
    cases qss with
    | nil => exact absurd h.length (by simp)
    | cons qs qss =>
      have hb := h.shows 0 b qs rfl rfl
      have hrest : Shown entry bs qss :=
        ⟨by simpa using h.length, fun j b ps hb hps => h.shows (j + 1) b ps hb hps⟩
      rw [firstData, items, List.flatten_cons]
      cases qs with
      | nil =>
        rw [if_neg (not_not.mpr (hb.data_eq_none.mpr rfl)), List.nil_append]
        exact ih hrest
      | cons q qs =>
        rw [if_pos (by simp [hb.1]), hb.1, List.cons_append, List.head?_cons]

theorem Shown.drop {entry : Heap (Option Nat)} {bs : List EntryBucket} {qss : List (List Nat)}
    (h : Shown entry bs qss) (n : Nat) : Shown entry (bs.drop n) (qss.drop n) := by
  refine ⟨by rw [List.length_drop, List.length_drop, h.length], fun j b ps hb hps => ?_⟩
  rw [List.getElem?_drop] at hb hps
  exact h.shows (n + j) b ps hb hps

theorem hashGetFirst_spec (h : Kept mix kind t ks tbl) :
    hashGetFirst t = .ok (items tbl).head? := by
  rw [hashGetFirst, firstData_of_shown h.shown, h.entries]
  cases items tbl <;> rfl

theorem nextInChain_spec {t : GHashEntries} {es qs : List Nat} {p q : Nat}
    (h : List.Forall₂ (fun e q => t.entry.read e = some (some q)) es qs) {l₁ l₂ : List Nat}
    (hchain : q :: qs = l₁ ++ p :: l₂) (hnot : p ∉ l₁) :
    nextInChain t p (some q) es = .ok (l₂.head?.map some) := by
  induction h generalizing q l₁ with
  | nil =>
    obtain rfl : l₂ = [] := by
      have hlen := congrArg List.length hchain
      simp only [List.length_append, List.length_cons, List.length_nil] at hlen
      exact List.length_eq_zero_iff.mp (by omega)
    rfl
  | @cons e r es qs heq _ ih =>
    rw [nextInChain, readEntry_of heq, ok_bind]
    cases l₁ with
    | nil =>
      obtain ⟨rfl, rfl⟩ := List.cons.inj hchain
      rw [if_pos rfl]
      rfl
    | cons a l₁ =>
      obtain ⟨rfl, hrest⟩ := List.cons.inj hchain
      have hne : ¬some q = some p := by
        rintro ⟨⟩
        exact hnot (by simp)
      rw [if_neg hne]
      exact ih hrest fun hin => hnot (List.mem_cons_of_mem q hin)

theorem items_split {tbl : List (List Nat)} {j p : Nat} {l₁ l₂ : List Nat}
    (hj : tbl[j]? = some (l₁ ++ p :: l₂)) :
    items tbl = (items (tbl.take j) ++ l₁) ++ p :: (l₂ ++ items (tbl.drop (j + 1))) := by
  obtain ⟨hlt, hget⟩ := List.getElem?_eq_some_iff.mp hj
  have hdrop : tbl.drop j = (l₁ ++ p :: l₂) :: tbl.drop (j + 1) := by
    rw [List.drop_eq_getElem_cons hlt, hget]
  calc
    items tbl = items (tbl.take j) ++ items (tbl.drop j) := by
      rw [items, items, items, ← List.flatten_append, List.take_append_drop]
    _ = _ := by
      rw [hdrop, items, items, items, List.flatten_cons]
      simp only [List.append_assoc, List.cons_append]

theorem append_cons_inj_of_notMem {l₁ l₂ r₁ r₂ : List Nat} {p : Nat}
    (h : l₁ ++ p :: l₂ = r₁ ++ p :: r₂) (hl : p ∉ l₁) (hr : p ∉ r₁) : l₂ = r₂ := by
  induction l₁ generalizing r₁ with
  | nil =>
    cases r₁ with
    | nil => exact (List.cons.inj h).2
    | cons a r₁ => exact absurd (List.cons.inj h).1 fun heq => hr (by simp [heq])
  | cons b l₁ ih =>
    cases r₁ with
    | nil => exact absurd (List.cons.inj h).1.symm fun heq => hl (by simp [heq])
    | cons a r₁ =>
      exact ih (List.cons.inj h).2 (fun hin => hl (List.mem_cons_of_mem b hin))
        fun hin => hr (List.mem_cons_of_mem a hin)

theorem hashGetNext_spec (h : Kept mix kind t ks tbl) {p : Nat} {r₁ r₂ : List Nat}
    (hsplit : items tbl = r₁ ++ p :: r₂) : hashGetNext mix kind t p = .ok r₂.head? := by
  have hp : p ∈ items tbl := hsplit ▸ List.mem_append_right r₁ (by simp)
  obtain ⟨k, c, hk, hc, hs⟩ := h.node hp
  obtain ⟨ps, hps, hpp⟩ := mem_home h.homed hp
  have hhome : GHashTable.home mix ks tbl.length p = mix k % tbl.length := by
    rw [GHashTable.home, hk, Option.getD_some]
  rw [hhome] at hps
  obtain ⟨b, ps', hb, hps', hshow⟩ := h.shown.bucket_at (Nat.mod_lt (mix k) h.pos)
  obtain rfl := Option.some.inj (hps.symm.trans hps')
  have hhash : GHashTable.hash mix kind c t.bucket.length = mix k % tbl.length := by
    rw [GHashTable.hash_of_keeps hs, h.shown.length]
  obtain ⟨l₁, l₂, hl⟩ := List.append_of_mem hpp
  rw [hl] at hps
  have hnodup := h.nodup
  have hall := items_split hps
  have hnot : p ∉ items (tbl.take (mix k % tbl.length)) ++ l₁ ∧ p ∉ l₁ := by
    rw [hall] at hnodup
    have hout := (List.nodup_cons.mp (List.nodup_middle.mp hnodup)).1
    exact ⟨fun hin => hout (List.mem_append_left _ hin), fun hin =>
      hout (List.mem_append_left _ (List.mem_append_right _ hin))⟩
  have hnot' : p ∉ r₁ := by
    rw [hsplit] at hnodup
    exact fun hin => (List.nodup_cons.mp (List.nodup_middle.mp hnodup)).1 (List.mem_append_left _ hin)
  obtain rfl := append_cons_inj_of_notMem (hall.symm.trans hsplit) hnot.1 hnot'
  obtain ⟨q, qs, rfl⟩ : ∃ q qs, ps = q :: qs := by
    cases ps with
    | nil => cases hpp
    | cons q qs => exact ⟨q, qs, rfl⟩
  simp only [hashGetNext, hc, ok_bind, safeHasher_spec hhash hb, hshow.1,
    nextInChain_spec hshow.2 hl hnot.2, firstData_of_shown (h.shown.drop _)]
  cases l₂ <;> rfl

theorem walkFrom_spec (h : Kept mix kind t ks tbl) {r₁ r₂ : List Nat} (hsplit : items tbl = r₁ ++ r₂)
    {fuel : Nat} (hfuel : r₂.length ≤ fuel) : walkFrom mix kind t fuel r₂.head? = .ok r₂ := by
  induction r₂ generalizing r₁ fuel with
  | nil => cases fuel <;> rfl
  | cons p r₂ ih =>
    cases fuel with
    | zero => exact absurd hfuel (by simp)
    | succ fuel =>
      have hnext : items tbl = (r₁ ++ [p]) ++ r₂ := by
        rw [hsplit, List.append_assoc]
        rfl
      rw [List.head?_cons, walkFrom, hashGetNext_spec h hsplit, ok_bind,
        ih hnext (by simpa using hfuel)]
      rfl

theorem walk_spec (h : Kept mix kind t ks tbl) : walk mix kind t = .ok t.stored := by
  rw [walk, hashGetFirst_spec h, ok_bind, h.stored_eq]
  exact @walkFrom_spec _ _ _ _ _ h [] _ rfl _ (Nat.le_of_eq h.entries.symm)

def process {σ α : Type} (processor : σ → α → σ × Bool) : σ → List α → σ × Nat
  | s, [] => (s, 0)
  | s, a :: as =>
      if (processor s a).2 then
        let r := process processor (processor s a).1 as
        (r.1, r.2 + 1)
      else ((processor s a).1, 0)

section
variable {σ α : Type}

theorem process_append (processor : σ → α → σ × Bool) (s : σ) (as bs : List α) :
    process processor s (as ++ bs) =
      if (process processor s as).2 = as.length then
        ((process processor (process processor s as).1 bs).1,
          as.length + (process processor (process processor s as).1 bs).2)
      else process processor s as := by
  induction as generalizing s with
  | nil => simp [process]
  | cons a as ih =>
    rw [List.cons_append, process, process]
    by_cases hmore : (processor s a).2
    · rw [if_pos hmore, if_pos hmore, ih, List.length_cons]
      simp only [Nat.add_right_cancel_iff]
      split_ifs
      · simp only [Nat.add_right_comm]
      · rfl
    · rw [if_neg hmore, if_neg hmore, List.length_cons, if_neg (Nat.succ_ne_zero _).symm]

variable (processor : σ → Option Nat → σ × Bool)

theorem forEachNext_spec {t : GHashEntries} {es qs : List Nat}
    (h : List.Forall₂ (fun e q => t.entry.read e = some (some q)) es qs) (s : σ) (n : Nat) :
    forEachNext processor t s n es =
      let r := process (fun s p => processor s (some p)) s qs
      .ok (r.1, n + r.2, decide (r.2 = qs.length)) := by
  induction h generalizing s n with
  | nil => rfl
  | @cons e q es qs heq _ ih =>
    rw [forEachNext, readEntry_of heq, ok_bind, process]
    by_cases hmore : (processor s (some q)).2
    · simp only [hmore, if_true, ih, List.length_cons, Nat.add_right_cancel_iff, Nat.add_assoc,
        Nat.add_comm 1]
    · simp only [hmore, Bool.false_eq_true, if_false, List.length_cons, pure_eq_ok, Nat.add_zero,
        (Nat.succ_ne_zero _).symm, decide_false]

theorem forEachBucket_spec {t : GHashEntries} {bs : List EntryBucket} {qss : List (List Nat)}
    (h : Shown t.entry bs qss) (s : σ) (n : Nat) :
    forEachBucket processor t s n bs =
      let r := process (fun s p => processor s (some p)) s (items qss)
      .ok (r.1, n + r.2) := by
  induction bs generalizing s n qss with
  | nil =>
    obtain rfl : qss = [] := List.length_eq_zero_iff.mp h.length.symm
    rfl
  | cons b bs ih =>
    cases qss with
    | nil => exact absurd h.length (by simp)
    | cons qs qss =>
      have hb := h.shows 0 b qs rfl rfl
      have hrest : Shown t.entry bs qss := h.drop 1
      have hitems : items (qs :: qss) = qs ++ items qss := List.flatten_cons
      rw [forEachBucket, hitems]
      cases qs with
      | nil =>
        rw [if_pos (hb.data_eq_none.mpr rfl)]
        exact ih hrest s n
      | cons q qs =>
        rw [if_neg (by simp [hb.1]), hb.1, List.cons_append, process]
        by_cases hmore : (processor s (some q)).2
        · simp only [hmore, if_true, forEachNext_spec processor hb.2, ok_bind, process_append]
          by_cases hall : (process (fun s p => processor s (some p)) (processor s (some q)).1 qs).2 =
              qs.length
          · simp only [hall, decide_true, if_true, ih hrest]
            congr 2
            omega
          · simp only [hall, decide_false, Bool.false_eq_true, if_false, pure_eq_ok]
            congr 2
            omega
        · simp only [hmore, Bool.false_eq_true, if_false, pure_eq_ok, Nat.add_zero]

theorem hashDoForEach_spec (h : Kept mix kind t ks tbl) (s : σ) :
    hashDoForEach processor t s =
      .ok (process (fun s p => processor s (some p)) s t.stored) := by
  rw [hashDoForEach, forEachBucket_spec processor h.shown, h.stored_eq]
  simp only [Nat.zero_add]

end

theorem process_buffer {α β : Type} (size : Nat) (f : α → β) (buffer : List β) (as : List α) :
    process (fun buffer a => if size ≤ buffer.length then (buffer, false) else (buffer ++ [f a], true))
        buffer as =
      (buffer ++ (as.take (size - buffer.length)).map f, min (size - buffer.length) as.length) := by
  induction as generalizing buffer with
  | nil => simp [process]
  | cons a as ih =>
    rw [process]
    by_cases hfull : size ≤ buffer.length
    · have hzero : size - buffer.length = 0 := by omega
      simp [hfull, hzero]
    · have hroom : size - buffer.length = (size - (buffer ++ [f a]).length) + 1 := by
        rw [List.length_append, List.length_singleton]
        omega
      simp only [hfull, if_false, if_true, ih]
      rw [hroom, List.take_succ_cons, List.map_cons, List.length_cons, Nat.add_min_add_right,
        List.append_assoc]
      rfl

theorem hashGetEntries_spec (h : Kept mix kind t ks tbl) (bufferSize : Nat) :
    hashGetEntries t bufferSize =
      .ok ((t.stored.take bufferSize).map some, min bufferSize t.stored.length) := by
  rw [hashGetEntries, hashDoForEach_spec _ h]
  simp only [process_buffer, List.length_nil, Nat.sub_zero, List.nil_append]

theorem Shows.length_next {entry : Heap (Option Nat)} {b : EntryBucket} {q : Nat} {qs : List Nat}
    (h : Shows entry b (q :: qs)) : b.next.length = qs.length := h.2.length_eq

theorem foldl_shown {β : Type} {f : β → EntryBucket → β} {g : β → List Nat → β}
    {entry : Heap (Option Nat)} (hfg : ∀ x b qs, Shows entry b qs → f x b = g x qs)
    {bs : List EntryBucket} {qss : List (List Nat)} (h : Shown entry bs qss) (x : β) :
    bs.foldl f x = qss.foldl g x := by
  induction bs generalizing x qss with
  | nil =>
    obtain rfl : qss = [] := List.length_eq_zero_iff.mp h.length.symm
    rfl
  | cons b bs ih =>
    cases qss with
    | nil => exact absurd h.length (by simp)
    | cons qs qss =>
      rw [List.foldl_cons, List.foldl_cons, hfg x b qs (h.shows 0 b qs rfl rfl)]
      exact ih (h.drop 1) _

theorem foldl_counts (qss : List (List Nat)) (u n : Nat) :
    qss.foldl (fun x qs => if qs ≠ [] then (x.1 + 1, x.2 + qs.length) else x) (u, n) =
      (u + used qss, n + (items qss).length) := by
  induction qss generalizing u n with
  | nil => rfl
  | cons qs qss ih =>
    have hused : used (qs :: qss) = used qss + if qs ≠ [] then 1 else 0 := by
      cases qs <;> simp [used]
    have hitems : (items (qs :: qss)).length = qs.length + (items qss).length := by
      rw [items, List.flatten_cons, List.length_append]
      rfl
    rw [List.foldl_cons, hused, hitems]
    by_cases hne : qs = []
    · subst hne
      simpa using ih u n
    · rw [if_pos hne, if_pos hne, ih]
      congr 1 <;> omega

theorem hashTableOk_spec (h : Kept mix kind t ks tbl) : hashTableOk t = true := by
  have hstep : ∀ (x : Nat × Nat) b qs, Shows t.entry b qs →
      (if b.data ≠ none then (x.1 + 1, x.2 + 1 + b.next.length) else (x.1, x.2)) =
        if qs ≠ [] then (x.1 + 1, x.2 + qs.length) else x := by
    intro x b qs hb
    cases qs with
    | nil => rw [if_neg (not_not.mpr (hb.data_eq_none.mpr rfl)), if_neg (by simp)]
    | cons q qs =>
      rw [if_pos (by simp [hb.1]), if_pos (by simp), hb.length_next, List.length_cons]
      congr 1
      omega
  rw [hashTableOk, foldl_shown hstep h.shown, foldl_counts]
  simp [h.used, h.entries]

theorem foldl_max (qss : List (List Nat)) (m : Nat) :
    let r := qss.foldl (fun m qs => if m < qs.length then qs.length else m) m
    m ≤ r ∧ (∀ qs ∈ qss, qs.length ≤ r) ∧ (r = m ∨ ∃ qs ∈ qss, qs.length = r) := by
  induction qss generalizing m with
  | nil => simp
  | cons qs qss ih =>
    rw [List.foldl_cons]
    by_cases hlt : m < qs.length
    · obtain ⟨hle, hall, hreach⟩ := ih qs.length
      rw [if_pos hlt]
      refine ⟨by omega, List.forall_mem_cons.mpr ⟨hle, hall⟩, Or.inr ?_⟩
      rcases hreach with hsame | ⟨ps, hps, hlen⟩
      · exact ⟨qs, by simp, hsame.symm⟩
      · exact ⟨ps, List.mem_cons_of_mem qs hps, hlen⟩
    · obtain ⟨hle, hall, hreach⟩ := ih m
      rw [if_neg hlt]
      refine ⟨hle, List.forall_mem_cons.mpr ⟨by omega, hall⟩, hreach.imp_right ?_⟩
      rintro ⟨ps, hps, hlen⟩
      exact ⟨ps, List.mem_cons_of_mem qs hps, hlen⟩

theorem hashGetMaxBucketLength_spec (h : Kept mix kind t ks tbl) :
    (∀ ps ∈ tbl, ps.length ≤ hashGetMaxBucketLength t) ∧
      ∃ ps ∈ tbl, ps.length = hashGetMaxBucketLength t := by
  have hstep : ∀ (m : Nat) b qs, Shows t.entry b qs →
      (if b.data ≠ none ∧ m < b.next.length + 1 then b.next.length + 1 else m) =
        if m < qs.length then qs.length else m := by
    intro m b qs hb
    cases qs with
    | nil =>
      rw [if_neg fun hc => hc.1 (hb.data_eq_none.mpr rfl), List.length_nil,
        if_neg (Nat.not_lt_zero m)]
    | cons q qs => simp [hb.1, hb.length_next]
  rw [hashGetMaxBucketLength, foldl_shown hstep h.shown]
  obtain ⟨-, hall, hreach⟩ := foldl_max tbl 0
  refine ⟨hall, ?_⟩
  rcases hreach with hzero | hex
  · have hmem : tbl.get ⟨0, h.pos⟩ ∈ tbl := List.get_mem tbl _
    exact ⟨_, hmem, Nat.le_antisymm (hall _ hmem) (hzero.trans_le (Nat.zero_le _))⟩
  · exact hex

theorem clearBuckets_spec {bs : List EntryBucket} (hheads : ∀ b ∈ bs, b.data = none → b = ⟨none, []⟩)
    (entry : Heap (Option Nat)) :
    clearBuckets entry bs =
      (entry.releaseAll none (overflow bs), List.replicate bs.length ⟨none, []⟩) := by
  induction bs generalizing entry with
  | nil => rfl
  | cons b bs ih =>
    have hrest := ih fun c hc => hheads c (List.mem_cons_of_mem b hc)
    rw [clearBuckets, overflow, List.flatMap_cons, List.length_cons, List.replicate_succ]
    by_cases hempty : b.data = none
    · rw [if_neg (not_not.mpr hempty), hrest, hheads b (by simp) hempty]
      rfl
    · rw [if_pos hempty, hrest, Heap.releaseAll, Heap.releaseAll, Heap.releaseAll, List.foldl_append]
      rfl

theorem hashClear_spec (h : Kept mix kind t ks tbl) :
    Kept mix kind (hashClear t) ks (List.replicate tbl.length []) ∧
      (hashClear t).entry = t.entry.releaseAll none (overflow t.bucket) ∧
      (hashClear t).nBuckets = t.nBuckets := by
  have hheads : ∀ b ∈ t.bucket, b.data = none → b = ⟨none, []⟩ := by
    intro b hb hempty
    obtain ⟨j, hj⟩ := List.mem_iff_getElem?.mp hb
    have hlt : j < tbl.length := h.shown.length ▸ (List.getElem?_eq_some_iff.mp hj).1
    obtain ⟨c, ps, hc, -, hshow⟩ := h.shown.bucket_at hlt
    obtain rfl := Option.some.inj (hj.symm.trans hc)
    obtain rfl := hshow.data_eq_none.mp hempty
    exact hshow
  have hclear : hashClear t = { t with
      entry := t.entry.releaseAll none (overflow t.bucket)
      bucket := List.replicate t.bucket.length ⟨none, []⟩
      nBucketsUsed := 0
      nEntries := 0 } := by
    rw [hashClear, clearBuckets_spec hheads]
  have howns : (t.entry.releaseAll none (overflow t.bucket)).Owns [] := by
    refine Heap.Owns.releaseAll ?_ none
    rw [List.append_nil]
    exact h.owns
  rw [hclear]
  refine ⟨⟨?_, ?_, by simpa using h.sized, by simpa using h.pos, (used_replicate _).symm, ?_, h.length,
    h.keeps, ?_, ?_, ?_, homed_replicate _ _⟩, rfl, rfl⟩
  · rw [h.shown.length]
    exact shown_replicate _ _
  · rw [overflow_replicate]
    exact howns
  all_goals simp [items_replicate]

theorem freeAll_spec {claimed es rest : List Nat} (h : claimed.Perm (es ++ rest)) :
    ∃ left, freeAll claimed es = .ok left ∧ left.Perm rest := by
  induction es generalizing claimed with
  | nil => exact ⟨claimed, rfl, h⟩
  | cons e es ih =>
    have he : e ∈ claimed := h.mem_iff.mpr (by simp)
    have herase : (claimed.erase e).Perm (es ++ rest) := by
      have hperm := h.erase e
      rwa [List.cons_append, List.erase_cons_head] at hperm
    rw [freeAll, free, if_pos he, ok_bind]
    exact ih herase

theorem freeBuckets_spec {claimed rest : List Nat} {bs : List EntryBucket}
    (h : claimed.Perm (overflow bs ++ rest)) :
    ∃ left, freeBuckets claimed bs = .ok left ∧ left.Perm rest := by
  induction bs generalizing claimed with
  | nil => exact ⟨claimed, rfl, h⟩
  | cons b bs ih =>
    have hparts : claimed.Perm (b.next ++ (overflow bs ++ rest)) := by
      rw [← List.append_assoc]
      exact h
    obtain ⟨left, hrun, hleft⟩ := freeAll_spec hparts
    rw [freeBuckets, hrun, ok_bind]
    exact ih hleft

theorem hashFree_spec (h : Kept mix kind t ks tbl) : hashFree t = .ok [] := by
  have hperm : (List.range' 1 t.entry.cell.length).Perm (overflow t.bucket ++ t.entry.free) :=
    h.owns.symm
  obtain ⟨left, hrun, hleft⟩ := freeBuckets_spec hperm
  rw [hashFree, hrun, ok_bind]
  have hfree : left.Perm (t.entry.free ++ []) := by rwa [List.append_nil]
  obtain ⟨left', hrun', hleft'⟩ := freeAll_spec hfree
  rw [hrun', hleft'.eq_nil]

end GHashEntries

end PathSet
