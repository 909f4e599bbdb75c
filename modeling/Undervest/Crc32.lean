import Undervest.Strings
import Undervest.Lib.CyclicRedundancy

/-!
# The CRC of a text

`CRC32` keeps the complement of the register that the comment in the header
describes, in an `unsigned long` of 64 bits.  It starts at zero, and the table has
the complements in it.  `bitwise` is the algorithm of the comment.

`Relates` ties the two registers.  One byte preserves it (`Relates.add`), so the
loops do, and the value after any calls is the one of the comment for all bytes
added so far (`value_eq_bitwise`).

A pointer is the memory from it on.  A loop that leaves this memory gives `none`.
-/

namespace Undervest

open CyclicRedundancy

/-! ## The class -/

structure CRC32 where
  accu : BitVec 64
deriving DecidableEq, Repr

namespace CRC32

set_option maxRecDepth 2000 in
def xortable : Vector (BitVec 64) 256 :=
  #v[0xD202EF8D, 0xA505DF1B, 0x3C0C8EA1, 0x4B0BBE37, 0xD56F2B94, 0xA2681B02, 0x3B614AB8, 0x4C667A2E,
    0xDCD967BF, 0xABDE5729, 0x32D70693, 0x45D03605, 0xDBB4A3A6, 0xACB39330, 0x35BAC28A, 0x42BDF21C,
    0xCFB5FFE9, 0xB8B2CF7F, 0x21BB9EC5, 0x56BCAE53, 0xC8D83BF0, 0xBFDF0B66, 0x26D65ADC, 0x51D16A4A,
    0xC16E77DB, 0xB669474D, 0x2F6016F7, 0x58672661, 0xC603B3C2, 0xB1048354, 0x280DD2EE, 0x5F0AE278,
    0xE96CCF45, 0x9E6BFFD3, 0x0762AE69, 0x70659EFF, 0xEE010B5C, 0x99063BCA, 0x000F6A70, 0x77085AE6,
    0xE7B74777, 0x90B077E1, 0x09B9265B, 0x7EBE16CD, 0xE0DA836E, 0x97DDB3F8, 0x0ED4E242, 0x79D3D2D4,
    0xF4DBDF21, 0x83DCEFB7, 0x1AD5BE0D, 0x6DD28E9B, 0xF3B61B38, 0x84B12BAE, 0x1DB87A14, 0x6ABF4A82,
    0xFA005713, 0x8D076785, 0x140E363F, 0x630906A9, 0xFD6D930A, 0x8A6AA39C, 0x1363F226, 0x6464C2B0,
    0xA4DEAE1D, 0xD3D99E8B, 0x4AD0CF31, 0x3DD7FFA7, 0xA3B36A04, 0xD4B45A92, 0x4DBD0B28, 0x3ABA3BBE,
    0xAA05262F, 0xDD0216B9, 0x440B4703, 0x330C7795, 0xAD68E236, 0xDA6FD2A0, 0x4366831A, 0x3461B38C,
    0xB969BE79, 0xCE6E8EEF, 0x5767DF55, 0x2060EFC3, 0xBE047A60, 0xC9034AF6, 0x500A1B4C, 0x270D2BDA,
    0xB7B2364B, 0xC0B506DD, 0x59BC5767, 0x2EBB67F1, 0xB0DFF252, 0xC7D8C2C4, 0x5ED1937E, 0x29D6A3E8,
    0x9FB08ED5, 0xE8B7BE43, 0x71BEEFF9, 0x06B9DF6F, 0x98DD4ACC, 0xEFDA7A5A, 0x76D32BE0, 0x01D41B76,
    0x916B06E7, 0xE66C3671, 0x7F6567CB, 0x0862575D, 0x9606C2FE, 0xE101F268, 0x7808A3D2, 0x0F0F9344,
    0x82079EB1, 0xF500AE27, 0x6C09FF9D, 0x1B0ECF0B, 0x856A5AA8, 0xF26D6A3E, 0x6B643B84, 0x1C630B12,
    0x8CDC1683, 0xFBDB2615, 0x62D277AF, 0x15D54739, 0x8BB1D29A, 0xFCB6E20C, 0x65BFB3B6, 0x12B88320,
    0x3FBA6CAD, 0x48BD5C3B, 0xD1B40D81, 0xA6B33D17, 0x38D7A8B4, 0x4FD09822, 0xD6D9C998, 0xA1DEF90E,
    0x3161E49F, 0x4666D409, 0xDF6F85B3, 0xA868B525, 0x360C2086, 0x410B1010, 0xD80241AA, 0xAF05713C,
    0x220D7CC9, 0x550A4C5F, 0xCC031DE5, 0xBB042D73, 0x2560B8D0, 0x52678846, 0xCB6ED9FC, 0xBC69E96A,
    0x2CD6F4FB, 0x5BD1C46D, 0xC2D895D7, 0xB5DFA541, 0x2BBB30E2, 0x5CBC0074, 0xC5B551CE, 0xB2B26158,
    0x04D44C65, 0x73D37CF3, 0xEADA2D49, 0x9DDD1DDF, 0x03B9887C, 0x74BEB8EA, 0xEDB7E950, 0x9AB0D9C6,
    0x0A0FC457, 0x7D08F4C1, 0xE401A57B, 0x930695ED, 0x0D62004E, 0x7A6530D8, 0xE36C6162, 0x946B51F4,
    0x19635C01, 0x6E646C97, 0xF76D3D2D, 0x806A0DBB, 0x1E0E9818, 0x6909A88E, 0xF000F934, 0x8707C9A2,
    0x17B8D433, 0x60BFE4A5, 0xF9B6B51F, 0x8EB18589, 0x10D5102A, 0x67D220BC, 0xFEDB7106, 0x89DC4190,
    0x49662D3D, 0x3E611DAB, 0xA7684C11, 0xD06F7C87, 0x4E0BE924, 0x390CD9B2, 0xA0058808, 0xD702B89E,
    0x47BDA50F, 0x30BA9599, 0xA9B3C423, 0xDEB4F4B5, 0x40D06116, 0x37D75180, 0xAEDE003A, 0xD9D930AC,
    0x54D13D59, 0x23D60DCF, 0xBADF5C75, 0xCDD86CE3, 0x53BCF940, 0x24BBC9D6, 0xBDB2986C, 0xCAB5A8FA,
    0x5A0AB56B, 0x2D0D85FD, 0xB404D447, 0xC303E4D1, 0x5D677172, 0x2A6041E4, 0xB369105E, 0xC46E20C8,
    0x72080DF5, 0x050F3D63, 0x9C066CD9, 0xEB015C4F, 0x7565C9EC, 0x0262F97A, 0x9B6BA8C0, 0xEC6C9856,
    0x7CD385C7, 0x0BD4B551, 0x92DDE4EB, 0xE5DAD47D, 0x7BBE41DE, 0x0CB97148, 0x95B020F2, 0xE2B71064,
    0x6FBF1D91, 0x18B82D07, 0x81B17CBD, 0xF6B64C2B, 0x68D2D988, 0x1FD5E91E, 0x86DCB8A4, 0xF1DB8832,
    0x616495A3, 0x1663A535, 0x8F6AF48F, 0xF86DC419, 0x660951BA, 0x110E612C, 0x88073096, 0xFF000000]

/-- The default constructor. -/
def new : CRC32 := ⟨0⟩

/-- The position in the table: `(accu ^ c) & 0xFF`. -/
def position (crc : CRC32) (c : Byte) : Fin 256 :=
  ⟨((crc.accu ^^^ c.toBitVec.setWidth 64) &&& 0xFF).toNat,
    Nat.lt_of_le_of_lt (BitVec.toNat_and .. ▸ Nat.and_le_right) (by decide)⟩

/-- `add(unsigned char)`, and `add(char)` after its cast. -/
def add (crc : CRC32) (c : Byte) : CRC32 := ⟨xortable.get (crc.position c) ^^^ crc.accu >>> 8⟩

/-- `while (*p) add(*p++)`. -/
def addString (crc : CRC32) : Str → Option CRC32
  | [] => none
  | c :: p => if c = 0 then some crc else addString (crc.add c) p

/-- `while (len--) add(*p++)`. -/
def addCount (crc : CRC32) : Str → Nat → Option CRC32
  | _, 0 => some crc
  | [], _ + 1 => none
  | c :: p, len + 1 => addCount (crc.add c) p len

/-- The default length. -/
def npos : UInt64 := ~~~0

/-- `add(const unsigned char *, size_t)`, and the overload for `const char *`. -/
def addPointer (crc : CRC32) (p : Str) (len : UInt64) : Option CRC32 :=
  if len = npos then crc.addString p else crc.addCount p len.toNat

/-- `add(_Iterator, _Iterator)`, for the bytes between the two, and `add` of a
container of them. -/
def addRange (crc : CRC32) : Str → CRC32
  | [] => crc
  | c :: b => addRange (crc.add c) b

def value (crc : CRC32) : BitVec 64 := crc.accu

/-- A call of one of the overloads of `add`, or of `operator+`. -/
inductive Call where
  | byte (c : Byte)
  | pointer (p : Str) (len : UInt64)
  | range (s : Str)
  | container (s : Str)
deriving DecidableEq, Repr

def call (crc : CRC32) : Call → Option CRC32
  | .byte c => some (crc.add c)
  | .pointer p len => crc.addPointer p len
  | .range s => some (crc.addRange s)
  | .container s => some (crc.addRange s)

def calls (crc : CRC32) (cs : List Call) : Option CRC32 := cs.foldlM call crc

/-- `CRC_32(const unsigned char *, size_t)`. -/
def crc32 (p : Str) (len : UInt64) : Option (BitVec 64) := (new.addPointer p len).map value

/-! ## The algorithm of the header -/

def POLY : BitVec 32 := 0xEDB88320

/-- Take in the bytes of a text. -/
def takeIn (r : BitVec 32) (s : Str) : BitVec 32 :=
  s.foldl (fun r c => update POLY r c.toBitVec) r

/-- Start with all ones, and return the complement. -/
def bitwise (s : Str) : BitVec 32 := ~~~takeIn 0xFFFFFFFF s

theorem takeIn_append (r : BitVec 32) (s t : Str) :
    takeIn r (s ++ t) = takeIn (takeIn r s) t := List.foldl_append

/-! ## One byte -/

/-- The accumulator is the complement of the register. -/
def Relates (crc : CRC32) (r : BitVec 32) : Prop := crc.accu = (~~~r).setWidth 64

theorem relates_new : Relates new 0xFFFFFFFF := rfl

/-- The table has the complements in it. -/
theorem xortable_toList : xortable.toList =
    (List.range 256).map fun i => (complementEntry POLY (BitVec.ofNat 8 i)).setWidth 64 := by
  decide +kernel

theorem xortable_get (i : Fin 256) :
    xortable.get i = (complementEntry POLY (BitVec.ofNat 8 i)).setWidth 64 := by
  have hget : xortable.toList[(i : Nat)]? = some (xortable.get i) := by
    rw [Vector.getElem?_toList, Vector.getElem?_eq_getElem i.isLt]
    rfl
  rw [xortable_toList, List.getElem?_map, List.getElem?_range i.isLt, Option.map_some] at hget
  exact (Option.some.inj hget).symm

theorem Relates.position {crc : CRC32} {r : BitVec 32} (h : crc.Relates r) (c : Byte) :
    BitVec.ofNat 8 (crc.position c) = low (~~~r) ^^^ c.toBitVec := by
  refine BitVec.eq_of_getLsbD_eq fun i hi => ?_
  have hpos : BitVec.ofNat 8 (crc.position c) =
      ((crc.accu ^^^ c.toBitVec.setWidth 64) &&& 0xFF).setWidth 8 :=
    BitVec.ofNat_toNat 8 ((crc.accu ^^^ c.toBitVec.setWidth 64) &&& 0xFF)
  rw [hpos, h, low]
  have h32 : i < 32 := by omega
  have h64 : i < 64 := by omega
  have hmask : (0xFF : BitVec 64).getLsbD i = true := by
    revert i
    decide
  simp only [BitVec.getLsbD_setWidth, BitVec.getLsbD_and, BitVec.getLsbD_xor, hmask, hi, h64,
    decide_true, Bool.true_and, Bool.and_true]

/-- A byte is added to both registers. -/
theorem Relates.add {crc : CRC32} {r : BitVec 32} (h : crc.Relates r) (c : Byte) :
    (crc.add c).Relates (update POLY r c.toBitVec) := by
  have hupdate := not_update POLY (~~~r) c.toBitVec (by decide)
  rw [BitVec.not_not] at hupdate
  have hdown : (~~~r).setWidth 64 >>> 8 = ((~~~r) >>> 8).setWidth 64 :=
    (BitVec.setWidth_ushiftRight (by decide)).symm
  rw [Relates, hupdate, CRC32.add, xortable_get, h.position, h, hdown, BitVec.setWidth_xor]

/-! ## The loops -/

theorem Relates.addRange {crc : CRC32} {r : BitVec 32} (h : crc.Relates r) (s : Str) :
    (crc.addRange s).Relates (takeIn r s) := by
  induction s generalizing crc r with
  | nil => exact h
  | cons c s ih => exact ih (h.add c)

/-- The first bytes at a pointer are added. -/
theorem addCount_append (crc : CRC32) (s rest : Str) :
    crc.addCount (s ++ rest) s.length = some (crc.addRange s) := by
  induction s generalizing crc with
  | nil => cases rest <;> rfl
  | cons c s ih => exact ih (crc.add c)

/-- The bytes in front of the first NUL are added. -/
theorem addString_append (crc : CRC32) {s : Str} (h : 0 ∉ s) (rest : Str) :
    crc.addString (s ++ 0 :: rest) = some (crc.addRange s) := by
  induction s generalizing crc with
  | nil => rfl
  | cons c s ih =>
      rw [List.mem_cons, not_or] at h
      rw [List.cons_append, addString, if_neg (Ne.symm h.1), ih _ h.2, CRC32.addRange]

/-! ## The calls -/

/-- The bytes that a call names. -/
inductive Supplies : Call → Str → Prop where
  | byte (c : Byte) : Supplies (.byte c) [c]
  | counted {len : UInt64} {s : Str} (rest : Str) (h : len.toNat = s.length) (hlen : len ≠ npos) :
      Supplies (.pointer (s ++ rest) len) s
  | string {s : Str} (rest : Str) (h : 0 ∉ s) : Supplies (.pointer (s ++ 0 :: rest) npos) s
  | range (s : Str) : Supplies (.range s) s
  | container (s : Str) : Supplies (.container s) s

/-- A call adds the bytes that it names. -/
theorem Supplies.call_eq {call : Call} {s : Str} (h : Supplies call s) (crc : CRC32) :
    crc.call call = some (crc.addRange s) := by
  cases h with
  | byte c => rfl
  | counted rest h hlen => rw [CRC32.call, addPointer, if_neg hlen, h, addCount_append]
  | string rest h => rw [CRC32.call, addPointer, if_pos rfl, addString_append crc h]
  | range s => rfl
  | container s => rfl

/-- Calls that follow each other add their bytes one behind the other. -/
theorem Relates.calls {crc : CRC32} {r : BitVec 32} (h : crc.Relates r) {cs : List Call}
    {ts : List Str} (hs : List.Forall₂ Supplies cs ts) :
    ∃ crc', crc.calls cs = some crc' ∧ crc'.Relates (takeIn r ts.flatten) := by
  induction hs generalizing crc r with
  | nil => exact ⟨crc, rfl, h⟩
  | @cons call s cs ts hcall _ ih =>
      obtain ⟨crc', hcalls, hrel⟩ := ih (h.addRange s)
      refine ⟨crc', ?_, ?_⟩
      · rw [CRC32.calls, List.foldlM_cons, hcall.call_eq]
        exact hcalls
      · rwa [List.flatten_cons, takeIn_append]

/-- **The table computes the CRC of the header**, whatever the calls that the bytes
come in. -/
theorem value_eq_bitwise {cs : List Call} {ts : List Str} (h : List.Forall₂ Supplies cs ts) :
    ∃ crc, new.calls cs = some crc ∧ crc.value = (bitwise ts.flatten).setWidth 64 :=
  relates_new.calls h

theorem value_eq_bitwise_sample :
    ∃ crc, new.calls [.byte (ch '1'), .pointer (str "2345" ++ [0]) npos, .pointer (str "678xyz") 3,
        .container (str "9")] = some crc ∧
      crc.value = (bitwise (str "123456789")).setWidth 64 :=
  value_eq_bitwise (show List.Forall₂ Supplies _ [str "1", str "2345", str "678", str "9"] from
    .cons (.byte _) (.cons (.string [] (by decide))
      (.cons (.counted (s := str "678") (str "xyz") rfl (by decide))
        (.cons (.container _) .nil))))

example : crc32 (str "123456789") 9 = some 0xCBF43926 := by decide +kernel

end CRC32

end Undervest
