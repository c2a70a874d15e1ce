import Stencil.Text.Blank

/-!
# Substitutions in a content line

A content line is literal text with two kinds of marker: `$${e}` is evaluated whenever the document
is generated, `${e}` only when emission is not deferred.  A marker around nothing but white space
stands for its braces, and a marker that is not closed is text.
-/

namespace Stencil

open Text

inductive Segment where
  | text (text : String)
  /-- `$${expr}`, evaluated in both modes of emission. -/
  | generation (expr : String)
  /-- `${expr}`, evaluated only in the resolved mode. -/
  | emission (expr : String)
  deriving DecidableEq, Repr

/-! ## Balanced braces -/

inductive Nesting where
  | code (depth : Nat)
  | quoted (depth : Nat)
  | escaped (depth : Nat)
  deriving DecidableEq, Repr

/-- One character further; `none` at the brace that closes the marker. -/
def Nesting.step : Nesting → Char → Option Nesting
  | .code depth, c =>
    if c = '"' then some (.quoted depth)
    else if c = '\x7b' then some (.code (depth + 1))
    else if c = '\x7d' then
      match depth with
      | 0 => none
      | depth + 1 => some (.code depth)
    else some (.code depth)
  | .quoted depth, c =>
    if c = '\\' then some (.escaped depth)
    else if c = '"' then some (.code depth)
    else some (.quoted depth)
  | .escaped depth, _ => some (.quoted depth)

def Nesting.split? : Nesting → List Char → Option (List Char × List Char)
  | _, [] => none
  | s, c :: r =>
    match s.step c with
    | none => some ([], r)
    | some s' => (s'.split? r).map fun (inside, rest) => (c :: inside, rest)

theorem Nesting.split?_eq {s : Nesting} {cs inside rest : List Char}
    (h : s.split? cs = some (inside, rest)) : ∃ c, cs = inside ++ c :: rest := by
  induction cs generalizing s inside with
  | nil => simp [split?] at h
  | cons c r ih =>
    rw [split?] at h
    split at h
    · simp only [Option.some.injEq, Prod.mk.injEq] at h
      obtain ⟨rfl, rfl⟩ := h
      exact ⟨c, rfl⟩
    · rename_i s' _
      simp only [Option.map_eq_some_iff, Prod.mk.injEq, Prod.exists] at h
      obtain ⟨i, t, hs, rfl, rfl⟩ := h
      obtain ⟨d, rfl⟩ := ih hs
      exact ⟨d, rfl⟩

def splitAtBrace? : List Char → Option (List Char × List Char)
  | [] => none
  | c :: r =>
    if c = '\x7d' then some ([], r)
    else (splitAtBrace? r).map fun (inside, rest) => (c :: inside, rest)

theorem splitAtBrace?_eq {cs inside rest : List Char}
    (h : splitAtBrace? cs = some (inside, rest)) : cs = inside ++ '\x7d' :: rest := by
  induction cs generalizing inside with
  | nil => simp [splitAtBrace?] at h
  | cons c r ih =>
    rw [splitAtBrace?] at h
    split at h
    · simp_all
    · simp only [Option.map_eq_some_iff, Prod.mk.injEq, Prod.exists] at h
      obtain ⟨i, t, hs, rfl, rfl⟩ := h
      rw [ih hs]
      rfl

/-! ## Markers -/

structure Marker where
  always : Bool
  inside : List Char

/-- The segment of a marker; around nothing but white space it is its braces. -/
def Marker.segment (m : Marker) : Segment :=
  if m.inside.all isBlank then .text (String.ofList ('\x7b' :: (m.inside ++ ['\x7d'])))
  else if m.always then .generation (String.ofList m.inside)
  else .emission (String.ofList m.inside)

def marker? : List Char → Option (Marker × List Char)
  | '$' :: '$' :: '\x7b' :: r =>
    (splitAtBrace? r).map fun (inside, rest) => (⟨true, inside⟩, rest)
  | '$' :: '\x7b' :: r =>
    ((Nesting.code 0).split? r).map fun (inside, rest) => (⟨false, inside⟩, rest)
  | _ => none

theorem length_lt_of_marker? {cs rest : List Char} {m : Marker}
    (h : marker? cs = some (m, rest)) : rest.length < cs.length := by
  unfold marker? at h
  split at h
  · simp only [Option.map_eq_some_iff, Prod.mk.injEq, Prod.exists] at h
    obtain ⟨i, t, hs, _, rfl⟩ := h
    have := splitAtBrace?_eq hs
    subst this
    simp
    omega
  · simp only [Option.map_eq_some_iff, Prod.mk.injEq, Prod.exists] at h
    obtain ⟨i, t, hs, _, rfl⟩ := h
    obtain ⟨d, rfl⟩ := Nesting.split?_eq hs
    simp
    omega
  · simp at h

namespace Segment

/-- The segment of a stretch of literal text, given in reverse; none if it is empty. -/
def ofPending : List Char → List Segment
  | [] => []
  | pending => [.text (String.ofList pending.reverse)]

/-- Splits a text whose literal beginning `pending` has been read already, in reverse. -/
def scan (pending : List Char) (cs : List Char) : List Segment :=
  match cs with
  | [] => ofPending pending
  | c :: r =>
    match _h : marker? (c :: r) with
    | some (m, rest) => ofPending pending ++ m.segment :: scan [] rest
    | none => scan (c :: pending) r
  termination_by cs.length
  decreasing_by
    · exact length_lt_of_marker? _h
    · simp

end Segment

def segments (line : String) : List Segment := Segment.scan [] line.toList

end Stencil
