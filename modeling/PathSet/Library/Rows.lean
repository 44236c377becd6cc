import PathSet.Library.Fallible

/-!
Texts of rows. A row is a line with a label, a mark, blanks and a value. The blanks put the
values into a column, and a reader passes over them.
-/

namespace Rows
open Fallible

section
variable {α : Type} [DecidableEq α]

def splitLines (last : α) (text : List α) : List (List α) := (text.splitOn last).dropLast

@[simp] theorem splitLines_nil (last : α) : splitLines last [] = [] := rfl

theorem splitLines_cons {last : α} {line : List α} (h : last ∉ line) (text : List α) :
    splitLines last (line ++ last :: text) = line :: splitLines last text := by
  rw [splitLines, List.splitOn_append_cons_self_of_not_mem h,
    List.dropLast_cons_of_ne_nil (List.splitOn_ne_nil _ _), ← splitLines]

theorem splitLines_append {last : α} {ls : List (List α)} (h : ∀ l ∈ ls, last ∉ l) (text : List α) :
    splitLines last (ls.flatMap (· ++ [last]) ++ text) = ls ++ splitLines last text := by
  induction ls with
  | nil => rfl
  | cons l ls ih =>
    rw [List.flatMap_cons, List.append_assoc, List.append_assoc, List.singleton_append,
      splitLines_cons (h l List.mem_cons_self), ih fun l' hl' => h l' (List.mem_cons_of_mem l hl')]
    rfl

structure Marks (α : Type) where
  last : α
  mark : α
  blank : α

variable (M : Marks α)

def row (label : List α) (blanks : Nat) (value : List α) : List α :=
  label ++ M.mark :: (List.replicate blanks M.blank ++ value)

def readRow (line : List α) : List α × List α :=
  (line.takeWhile (· ≠ M.mark), ((line.dropWhile (· ≠ M.mark)).drop 1).dropWhile (· = M.blank))

def readRows (text : List α) : List (List α × List α) := (splitLines M.last text).map (readRow M)

structure Legible (x : List α × List α) : Prop where
  label : M.mark ∉ x.1 ∧ M.last ∉ x.1
  value : M.last ∉ x.2 ∧ x.2.head? ≠ some M.blank

variable {M}

theorem readRow_row {x : List α × List α} (h : Legible M x) (blanks : Nat) :
    readRow M (row M x.1 blanks x.2) = x := by
  have hlabel : ∀ a ∈ x.1, decide (a ≠ M.mark) = true := fun a ha =>
    decide_eq_true fun heq => h.label.1 (heq ▸ ha)
  have hvalue : x.2.dropWhile (· = M.blank) = x.2 := by
    cases hx : x.2 with
    | nil => rfl
    | cons a value =>
      have ha : a ≠ M.blank := fun heq => h.value.2 (by rw [hx, heq]; rfl)
      rw [List.dropWhile_cons_of_neg (by simpa using ha)]
  have hblanks : (List.replicate blanks M.blank ++ x.2).dropWhile (· = M.blank) = x.2 := by
    rw [List.dropWhile_append_of_pos (fun a ha => decide_eq_true (List.eq_of_mem_replicate ha)),
      hvalue]
  rw [readRow, row, List.takeWhile_append_of_pos hlabel, List.dropWhile_append_of_pos hlabel]
  simp [hblanks]

omit [DecidableEq α] in
theorem last_notMem_row (hM : M.last ≠ M.mark ∧ M.last ≠ M.blank) {x : List α × List α}
    (h : Legible M x) (blanks : Nat) : M.last ∉ row M x.1 blanks x.2 := by
  simp only [row, List.mem_append, List.mem_cons, List.mem_replicate, not_or, not_and]
  exact ⟨h.label.2, hM.1, fun _ => hM.2, h.value.1⟩

inductive Tells (M : Marks α) : List α → List (List α × List α) → Prop where
  | nil : Tells M [] []
  | cons {x : List α × List α} {text : List α} {rows : List (List α × List α)} (h : Legible M x)
      (blanks : Nat) (rest : Tells M text rows) :
      Tells M (row M x.1 blanks x.2 ++ M.last :: text) (x :: rows)

omit [DecidableEq α] in
theorem Tells.append {text text' : List α} {rows rows' : List (List α × List α)}
    (h : Tells M text rows) (h' : Tells M text' rows') : Tells M (text ++ text') (rows ++ rows') := by
  induction h with
  | nil => exact h'
  | cons hx blanks _ ih =>
    rw [List.append_assoc, List.cons_append, List.cons_append]
    exact Tells.cons hx blanks ih

theorem Tells.readRows (hM : M.last ≠ M.mark ∧ M.last ≠ M.blank) {text : List α}
    {rows : List (List α × List α)} (h : Tells M text rows) : readRows M text = rows := by
  induction h with
  | nil => rfl
  | cons hx blanks _ ih =>
    rw [Rows.readRows, splitLines_cons (last_notMem_row hM hx blanks), List.map_cons, readRow_row hx,
      ← Rows.readRows, ih]

omit [DecidableEq α] in
theorem tells_writeAll {ε β : Type} {write : β → Except ε (List α)}
    {rowsOf : β → Except ε (List (List α × List α))} {bs : List β}
    (h : ∀ b ∈ bs, Agree (Tells M) (write b) (rowsOf b)) :
    Agree (Tells M) (writeAll write bs) (writeAll rowsOf bs) := by
  induction bs with
  | nil => exact Tells.nil
  | cons b bs ih =>
    rw [writeAll, writeAll]
    refine (h b List.mem_cons_self).bind fun text rows htext => ?_
    refine (ih fun b' hb' => h b' (List.mem_cons_of_mem b hb')).bind fun text' rows' htext' => ?_
    exact htext.append htext'

end

end Rows
