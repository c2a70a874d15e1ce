import Stencil.Proofs.Inlining

/-!
# Lines without loss

The lines of a document, each written with its newline if it has one, are the text of the document
again.  Where they are spliced into another document, the last of them ends as the directive does, and
they are the text or, behind a line without an end, the text and one newline.
-/

namespace Stencil

namespace SourceLine

/-- The text that a row of lines makes up. -/
def joined (lines : List SourceLine) : String :=
  String.join (lines.map fun line => if line.terminated then line.text ++ "\n" else line.text)

theorem joined_append (lines more : List SourceLine) :
    joined (lines ++ more) = joined lines ++ joined more := by
  simp [joined]

theorem toList_joined (lines : List SourceLine) :
    (joined lines).toList =
      lines.flatMap fun line => line.text.toList ++ if line.terminated then ['\n'] else [] := by
  rw [joined, String.toList_join, List.flatMap_map]
  congr 1
  funext line
  cases line.terminated <;> simp

end SourceLine

namespace Document

open SourceLine

theorem joined_lines (document : Document) : joined document.lines = document.text := by
  rw [← String.toList_inj, toList_joined, flatMap_lines]

theorem numbers_of_pieces (path : Path) (n : Nat) (ps : List (List Char)) :
    (number path n ps).map (·.number) = List.range' n (number path n ps).length := by
  induction n, ps using number.induct with
  | case1 n => rfl
  | case2 n piece => rfl
  | case3 n piece rest more ih =>
    rw [number]
    · rw [List.map_cons, ih, List.length_cons, List.range'_succ]
    · exact more

theorem terminated_of_mem_numberClosed {path : Path} {n : Nat} {ps : List (List Char)}
    {line : SourceLine} (h : line ∈ numberClosed path n ps) : line.terminated = true := by
  induction ps generalizing n with
  | nil => simp [numberClosed] at h
  | cons piece rest ih =>
    rw [numberClosed] at h
    rcases List.mem_cons.1 h with rfl | h
    · rfl
    · exact ih h

/-- Only the last line has no newline behind it, and it is empty if nothing stands behind the last
newline of the text. -/
theorem exists_last_line (document : Document) :
    ∃ front last, document.lines = front ++ [last] ∧ (∀ line ∈ front, line.terminated = true) ∧
      last.terminated = false ∧
      (last.text = "" ↔ document.text = "" ∨ document.text.toList.getLast? = some '\n') := by
  obtain ⟨front, last, split, empty⟩ := exists_last_piece document.text.toList
  refine ⟨numberClosed document.path 1 front,
    ⟨String.ofList last, document.path, 1 + front.length, false⟩, ?_,
    fun line hl => terminated_of_mem_numberClosed hl, rfl, ?_⟩
  · rw [lines, split, number_append _ _ _ (by simp), number]
  · simpa using empty

theorem joined_splice (document : Document) (terminated : Bool) :
    joined (document.splice terminated) = inlined terminated document.text := by
  obtain ⟨front, last, split, -, unended, empty⟩ := exists_last_line document
  have whole : joined front ++ last.text = document.text := by
    rw [← joined_lines, split, joined_append]
    simp [joined, unended]
  rw [splice, split, closeLast_append, joined_append, inlined]
  by_cases void : last.text = ""
  · rw [if_pos void, if_neg]
    · rw [← whole, void]
      rfl
    · rintro ⟨-, filled, open_end⟩
      exact (empty.1 void).elim filled open_end
  · obtain ⟨filled, open_end⟩ := not_or.1 (mt empty.2 void)
    rw [if_neg void]
    cases terminated with
    | true =>
      rw [if_pos ⟨rfl, filled, open_end⟩, ← whole, String.append_assoc]
      simp [joined]
    | false =>
      rw [if_neg (by simp), ← whole]
      simp [joined]

theorem ended_of_mem_splice {document : Document} {terminated : Bool} {line : SourceLine}
    (h : line ∈ document.splice terminated) (empty : line.text = "") : line.terminated = true := by
  obtain ⟨front, last, split, ended, -, -⟩ := exists_last_line document
  rw [splice, split, closeLast_append] at h
  rcases List.mem_append.1 h with h | h
  · exact ended line h
  · by_cases void : last.text = ""
    · simp [void] at h
    · rw [if_neg void, List.mem_singleton] at h
      subst h
      exact absurd empty void

/-- Neither the lines of a document nor the lines that are spliced for it lose anything of its text. -/
theorem splitting_lossless (document : Document) :
    joined document.lines = document.text ∧
    (∀ line ∈ document.lines, OneLine line.text) ∧
    document.lines.map (·.number) = List.range' 1 document.lines.length ∧
    ∃ front last, document.lines = front ++ [last] ∧ (∀ line ∈ front, line.terminated = true) ∧
      last.terminated = false ∧
      ∀ terminated,
        joined (document.splice terminated) = inlined terminated document.text ∧
        document.splice terminated =
          front ++ (if last.text = "" then [] else [{ last with terminated }]) ∧
        ∀ line ∈ document.splice terminated, line.text = "" → line.terminated = true := by
  obtain ⟨front, last, split, ended, unended, -⟩ := exists_last_line document
  refine ⟨joined_lines document, fun line hl => oneLine_of_mem_lines hl,
    numbers_of_pieces _ _ _, front, last, split, ended, unended, fun terminated => ⟨?_, ?_, ?_⟩⟩
  · exact joined_splice document terminated
  · rw [splice, split, closeLast_append]
  · exact fun line hl empty => ended_of_mem_splice hl empty

end Document

end Stencil
