import SegregatedFit.Config.Basic
import SegregatedFit.Text.Blank
import SegregatedFit.Text.Numeral
import SegregatedFit.Traced

/-
  Settings from the environment.

  Each setting has a variable.  One that is not set, or that
  is not text, leaves the default as it is.  One that is text
  but no numeral does so too and is reported.
-/

namespace SegregatedFit

/- The bytes that the environment holds under a name. -/
abbrev Environment :=
  String → Option ByteArray

namespace Environment

/- The variable of the chunk size. -/
def chunkSizeName : String :=
  "SEGALLOC_CHUNK_SIZE"

/- The variable of the resize multiplier. -/
def resizeMultiplierName : String :=
  "SEGALLOC_RESIZE_MULTIPLIER"

/-
  The word that a variable holds.  Blank characters around
  the numeral do not count.
-/
def readWord
    (environment : Environment)
    (name : String) :
    Traced (Option { n : Nat // n < Word.limit }) :=
  match environment name >>= String.fromUTF8? with
  | none => pure none
  | some value =>
      match h : Text.numeral? (Text.trim value.toList) with
      | some n => pure (some ⟨n, Text.lt_of_numeral? h⟩)
      | none => do
          Traced.report (.unreadableVariable name value)
          return none

end Environment

/- The settings of an environment. -/
def Config.ofEnvironment
    (environment : Environment) : Traced Config := do
  let chunkSize ←
    environment.readWord Environment.chunkSizeName
  let resizeMultiplier ←
    environment.readWord Environment.resizeMultiplierName
  let chunkSize := chunkSize.getD
    ⟨default.chunkSize, default.chunkSize_lt⟩
  let resizeMultiplier := resizeMultiplier.getD
    ⟨default.resizeMultiplier, default.resizeMultiplier_lt⟩
  return {
    chunkSize := chunkSize.1,
    resizeMultiplier := resizeMultiplier.1,
    chunkSize_lt := chunkSize.2,
    resizeMultiplier_lt := resizeMultiplier.2 }

end SegregatedFit
