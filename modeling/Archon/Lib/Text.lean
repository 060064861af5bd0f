import Archon.Lib.Utf8
import Mathlib.Data.List.Basic

/-!
# Archon.Lib.Text

Text as a list of characters, with the string operations protocols cut their
messages up with: a prefix taken off, the first occurrence of a separator, the
pieces between the occurrences of one character.
-/

namespace Archon

abbrev Text := List Char

/-- The UTF-8 bytes of a text. -/
def Text.bytes (t : Text) : Bytes := t.flatMap String.utf8EncodeChar

/-- White space, as Unicode has it. -/
def isWhitespace (c : Char) : Bool :=
  let n := c.toNat
  (9 ≤ n && n ≤ 13) || n == 32 || n == 0x85 || n == 0xA0 || n == 0x1680 ||
    (0x2000 ≤ n && n ≤ 0x200A) || n == 0x2028 || n == 0x2029 || n == 0x202F || n == 0x205F ||
    n == 0x3000

/-- Without the white space at both ends. -/
def trim (t : Text) : Text :=
  ((t.dropWhile isWhitespace).reverse.dropWhile isWhitespace).reverse

section

variable {α : Type} [DecidableEq α]

/-- `s` without the prefix `p`, if it has it. -/
def stripPrefix : List α → List α → Option (List α)
  | [], s => some s
  | _ :: _, [] => none
  | a :: p, b :: s => if a = b then stripPrefix p s else none

@[simp] theorem stripPrefix_append (p s : List α) : stripPrefix p (p ++ s) = some s := by
  induction p with
  | nil => rfl
  | cons a p ih => simp [stripPrefix, ih]

theorem stripPrefix_eq_some {p s rest : List α} : stripPrefix p s = some rest ↔ s = p ++ rest := by
  refine ⟨fun h => ?_, fun h => h ▸ stripPrefix_append p rest⟩
  induction p generalizing s with
  | nil =>
    cases h
    rfl
  | cons a p ih =>
    cases s with
    | nil => cases h
    | cons b s =>
      unfold stripPrefix at h
      split at h
      · next hab => rw [ih h, hab, List.cons_append]
      · cases h

/-- The text before and after the first occurrence of a separator. -/
def splitOnce (sep : List α) : List α → Option (List α × List α)
  | [] => (stripPrefix sep []).map fun rest => ([], rest)
  | a :: s =>
    match stripPrefix sep (a :: s) with
    | some rest => some ([], rest)
    | none => (splitOnce sep s).map fun (head, rest) => (a :: head, rest)

theorem splitOnce_append (sep s : List α) : splitOnce sep (sep ++ s) = some ([], s) := by
  have hstrip := stripPrefix_append sep s
  cases h : sep ++ s with
  | nil => simp_all [splitOnce]
  | cons a rest =>
    rw [h] at hstrip
    simp [splitOnce, hstrip]

variable {a : α}

/-- A character that does not start the separator is passed over. -/
theorem splitOnce_cons_of_ne {b : α} (h : b ≠ a) (sep s : List α) :
    splitOnce (a :: sep) (b :: s) =
      (splitOnce (a :: sep) s).map fun (head, rest) => (b :: head, rest) := by
  simp [splitOnce, stripPrefix, h.symm]

variable {xs : List α}

/-- Characters that do not start the separator are passed over. -/
theorem splitOnce_append_of_not_mem (h : a ∉ xs) (sep s : List α) :
    splitOnce (a :: sep) (xs ++ s) =
      (splitOnce (a :: sep) s).map fun (head, rest) => (xs ++ head, rest) := by
  induction xs with
  | nil => simp
  | cons b xs ih =>
    rw [List.cons_append, splitOnce_cons_of_ne (by grind), ih (by grind), Option.map_map]
    rfl

/-- What is found makes up the text. -/
theorem eq_of_splitOnce {sep s head rest : List α} (h : splitOnce sep s = some (head, rest)) :
    s = head ++ sep ++ rest := by
  induction s generalizing head with
  | nil =>
    obtain ⟨r, hr, heq⟩ := Option.map_eq_some_iff.mp h
    cases heq
    simpa using stripPrefix_eq_some.mp hr
  | cons a s ih =>
    unfold splitOnce at h
    split at h
    · next r hr =>
      cases h
      exact stripPrefix_eq_some.mp hr
    · obtain ⟨⟨head', rest'⟩, hr, heq⟩ := Option.map_eq_some_iff.mp h
      grind

theorem splitOn_append_cons (h : a ∉ xs) (s : List α) :
    (xs ++ a :: s).splitOn a = xs :: s.splitOn a :=
  List.splitOnP_append_cons_of_forall_mem (fun x hx => by grind) a (by simp) s

theorem splitOn_append_last (h : a ∉ xs) (s : List α) :
    (s ++ a :: xs).splitOn a = s.splitOn a ++ [xs] := by
  rw [List.splitOn, List.splitOnP_append_cons _ _ (by simp)]
  congr 1
  exact List.splitOnP_eq_singleton fun x hx => by grind

theorem splitOn_of_not_mem (h : a ∉ xs) : xs.splitOn a = [xs] :=
  List.splitOnP_eq_singleton fun x hx => by grind

end

end Archon
