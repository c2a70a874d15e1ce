import Stencil.Proofs.Lines
import Stencil.Proofs.Script.Lexing

/-!
# Literals inside of a script

A reader in front of the literal of a text reads one token with this text, in whatever part of a
script it is, and goes on behind the literal.  Only a quote behind it would prolong the literal, since
a doubled quote is a quote inside of a string.  So no text ends its literal early, and the literal
tells the text.
-/

namespace Stencil

namespace Script.Lexer

theorem length_literal (text : String) :
    (Text.literal text).length = (Text.literalChars text.toList).length := by
  rw [← String.length_toList, Text.literal, String.toList_ofList]

theorem scan_literal (text : String) {rest : List Char} (behind : rest.head? ≠ some '"')
    {s : State} (outside : s.inText = false) :
    scan s ((Text.literal text).toList ++ rest) =
      ⟨.text text, s.pos⟩ :: scan ⟨⟨s.pos.line, s.pos.column + (Text.literal text).length⟩, true,
        s.depths, false⟩ rest := by
  rw [length_literal, Text.literal, String.toList_ofList]
  have chars : Text.literalChars text.toList ++ rest =
      '"' :: (text.toList.flatMap Text.literalChar ++ '"' :: rest) := by
    simp [Text.literalChars]
  have opening := skipGap_visible (c := '"') (by decide) (by decide) s.pos
    (text.toList.flatMap Text.literalChar ++ '"' :: rest)
  have short : rest.length <
      ('"' :: (text.toList.flatMap Text.literalChar ++ '"' :: rest)).length := by
    simp
    omega
  rw [chars, scan, outside, if_neg (by decide), opening]
  simp only [Lexes.token_literalChars text.toList s.operand s.pos behind, if_pos short,
    String.ofList_toList]
  rfl

/-- No text breaks out of its literal, and the literal shows no control character. -/
theorem literal_sealed (text : String) {rest : List Char} (behind : rest.head? ≠ some '"')
    {s : State} (outside : s.inText = false) :
    scan s ((Text.literal text).toList ++ rest) =
      ⟨.text text, s.pos⟩ :: scan ⟨⟨s.pos.line, s.pos.column + (Text.literal text).length⟩, true,
        s.depths, false⟩ rest ∧
    ∀ c ∈ (Text.literal text).toList, c ≠ '\n' ∧ c ≠ '\r' ∧ Text.isControl c = false := by
  refine ⟨scan_literal text behind outside, fun c hc => ⟨?_, ?_, Text.isControl_of_mem_literal hc⟩⟩
  · rintro rfl
    exact Text.not_mem_literal (.inl rfl) text hc
  · rintro rfl
    exact Text.not_mem_literal (.inr rfl) text hc

theorem literal_sealed_of_escapes :
    [';'].head? ≠ some '"' ∧ State.inText ⟨.start, false, [], false⟩ = false ∧
    scan ⟨.start, false, [], false⟩ ((Text.literal "\"\\\x7f41𝄞").toList ++ [';']) =
      ⟨.text "\"\\\x7f41𝄞", .start⟩ :: scan ⟨⟨1, 16⟩, true, [], false⟩ [';'] ∧
    ∀ c ∈ (Text.literal "\"\\\x7f41𝄞").toList, c ≠ '\n' ∧ c ≠ '\r' ∧ Text.isControl c = false :=
  ⟨by decide, rfl, literal_sealed "\"\\\x7f41𝄞" (by decide) rfl⟩

end Script.Lexer

theorem Text.literal_injective : Function.Injective Text.literal := by
  intro s t same
  have row (text : String) : Script.tokens (literal text) =
      ⟨.text text, .start⟩ :: Script.Lexer.scan ⟨⟨Script.Pos.start.line,
        Script.Pos.start.column + (literal text).length⟩, true, [], false⟩ [] := by
    have ended : ([] : List Char).head? ≠ some '"' := by simp
    have read := Script.Lexer.scan_literal text ended (s := ⟨.start, false, [], false⟩) rfl
    rwa [List.append_nil] at read
  have firsts := (row s).symm.trans ((congrArg Script.tokens same).trans (row t))
  injection firsts with first
  injection first with token
  injection token

end Stencil
