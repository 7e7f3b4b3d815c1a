import SegregatedFit.Block.Basic
import SegregatedFit.Error
import SegregatedFit.FreeList.SizeClass

/-
  The two settings of an allocator, and which of their values
  it accepts: `Config.validate`.
-/

namespace SegregatedFit

/-
  The least number of bytes that the heap grows by, and the
  factor on the size that is asked for when a block has to
  move in order to grow.  Both are words.
-/
structure Config where
  chunkSize : Nat
  resizeMultiplier : Nat
  chunkSize_lt : chunkSize < Word.limit := by decide
  resizeMultiplier_lt :
    resizeMultiplier < Word.limit := by decide
  deriving DecidableEq, Repr

namespace Config

/- The chunk size where none is set. -/
abbrev defaultChunkSize : Nat :=
  4096

/- The settings where none are given. -/
def default : Config where
  chunkSize := defaultChunkSize
  resizeMultiplier := 1

/- Settings that let blocks grow generously when they move. -/
def generous : Config where
  chunkSize := defaultChunkSize
  resizeMultiplier := SizeClass.count

/- Settings are refused for the first of these reasons. -/
def validate
    (config : Config) : Except Error Unit :=
  if config.chunkSize < minimumBlock then
    .error (.invalidConfig
      "chunk size is below the minimum block size")
  else if config.chunkSize % doubleWord ≠ 0 then
    .error (.invalidConfig
      "chunk size is not a multiple of the double word")
  else if config.resizeMultiplier = 0 then
    .error (.invalidConfig
      "resize multiplier is zero")
  else
    .ok ()

/- The settings where none are given are accepted. -/
theorem validate_default :
    default.validate = .ok () :=
  rfl

/- Settings are accepted exactly within these limits. -/
theorem validate_eq_ok_iff
    {config : Config} :
    config.validate = .ok () ↔
      minimumBlock ≤ config.chunkSize ∧
        config.chunkSize % doubleWord = 0 ∧
        0 < config.resizeMultiplier := by
  unfold validate
  split
  · simp
    omega
  · split
    · simp
      omega
    · split
      · simp
        omega
      · simp
        omega

/-
  What is grown by for a size in double words is in double
  words, also where the chunk size is larger.
-/
theorem max_mod_of_validate
    {config : Config}
    {size : Nat}
    (hValid : config.validate = .ok ())
    (hMod : size % doubleWord = 0) :
    max size config.chunkSize % doubleWord = 0 := by
  have hChunk := (validate_eq_ok_iff.1 hValid).2.1
  rcases Nat.le_total size config.chunkSize with
    hOrder | hOrder
  · rw [Nat.max_eq_right hOrder]
    exact hChunk
  · rw [Nat.max_eq_left hOrder]
    exact hMod

/- It is a word where the size is one. -/
theorem max_lt
    (config : Config)
    {size : Nat}
    (hWord : size < Word.limit) :
    max size config.chunkSize < Word.limit :=
  Nat.max_lt.2 ⟨hWord, config.chunkSize_lt⟩

end Config

end SegregatedFit
