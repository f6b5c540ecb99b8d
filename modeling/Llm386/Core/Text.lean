import Llm386.Core.Ids

/-! # Text

The string operations of the standard library that the pager, the packer and the reducers use. -/

namespace Llm386

/-- The bytes of a string, `str::as_bytes`. -/
def asBytes (s : String) : Bytes := s.toUTF8.data.toList

theorem fromUTF8?_asBytes (s : String) : String.fromUTF8? ⟨(asBytes s).toArray⟩ = some s := by
  unfold String.fromUTF8? asBytes
  rw [Array.toArray_toList]
  exact dif_pos s.isValidUTF8

theorem asBytes_of_fromUTF8 {bytes : Bytes} {s : String} (h : String.fromUTF8? ⟨bytes.toArray⟩ = some s) :
    asBytes s = bytes := by
  unfold String.fromUTF8? at h
  split at h
  · cases h
    rfl
  · cases h

/-- Unicode `White_Space`. -/
def isWhitespace (c : Char) : Bool :=
  let n := c.toNat
  (9 ≤ n && n ≤ 13) || n == 0x20 || n == 0x85 || n == 0xA0 || n == 0x1680 || (0x2000 ≤ n && n ≤ 0x200A) ||
    n == 0x2028 || n == 0x2029 || n == 0x202F || n == 0x205F || n == 0x3000

/-- `str::trim_end`. -/
def trimEnd (s : String) : String := String.ofList (s.toList.rdropWhile isWhitespace)

/-- `str::trim`. -/
def trim (s : String) : String := String.ofList ((s.toList.dropWhile isWhitespace).rdropWhile isWhitespace)

end Llm386
