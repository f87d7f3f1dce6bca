/-
# The words of the table

A slot of `Buckets` is a 64-bit word: two tag bits over a payload whose low 32
bits are a key. Tag 0 is an empty slot (the word 0) or a stored key, tag 1 a
key that `Relocate` is moving, tag 3 a slot that `add` has reserved. `strip`
takes the tag off (`(w << 2) >> 2`), `moving` and `reserved` put one on.

`toNat_strip`, `toNat_tag`, `toNat_moving` and `toNat_reserved` say what the
shifts and ors compute; every other fact about tags follows by arithmetic.
-/
import Mathlib.Data.BitVec
import Mathlib.Tactic.NormNum

namespace LFHash

/-- `unsigned long`. -/
abbrev Word := BitVec 64

/-- `unsigned int`. -/
abbrev Key := BitVec 32

/-- `(w << 2) >> 2`. -/
def strip (w : Word) : Word := (w <<< 2) >>> 2

/-- `w >> 62`. -/
def tag (w : Word) : Word := w >>> 62

/-- `((w << 2) >> 2) | (1L << 62)`. -/
def moving (w : Word) : Word := strip w ||| (1#64 <<< 62)

/-- `((w << 2) >> 2) | (3L << 62)`. -/
def reserved (w : Word) : Word := strip w ||| (3#64 <<< 62)

/-- A key as a word of the table. -/
def entry (key : Key) : Word := key.setWidth 64

/-- `getKey(Entry)`: the low 48 bits, returned as an `unsigned int`. -/
def getKey (w : Word) : Key := (w &&& 0xFFFFFFFFFFFF#64).setWidth 32

/-- `getHeader(Entry)`: the high 16 bits. -/
def getHeader (w : Word) : BitVec 16 := (w >>> 48).setWidth 16

/-- The test `Header == 2` of `BucketInsert`: `Header` is a `short int`, so
`Header >>= 14` shifts its sign in. -/
def isRemoved (w : Word) : Bool := (getHeader w).sshiftRight 14 == 2#16

/-- The word `CreateBucketEntry(key, &NewEntry, threadID)` builds: the key under
the header `STATE | threadID`, with `STATE = 3 << 14` in a `short int`. -/
def createBucketEntry (key : Key) (threadID : BitVec 16) : Word :=
  entry key ||| (((0#16 ||| 3#16 <<< 14) ||| threadID).signExtend 64 <<< 48)

/-- The word `add` reserves its slot with. -/
def newEntry (key : Key) : Word := createBucketEntry key 0

/-- `FinalEntry` of `Remove`, from the counter's value: `TimeStamp()` returns an
`unsigned int`, and the tag of `((FinalEntry << 2) >> 2) | (2L << 62)` is lost
when the word is stored in one. -/
def finalEntry (timeStamp : Word) : Word :=
  let FinalEntry : BitVec 32 := timeStamp.setWidth 32
  entry ((((FinalEntry <<< 2) >>> 2).setWidth 64 ||| (2#64 <<< 62)).setWidth 32)

/-- `random` of `Remove`: `INT_MAX` with tag 3. -/
def random : Word := reserved 0x7FFFFFFF#64

/-! ### What the operations compute -/

theorem toNat_strip (w : Word) : (strip w).toNat = w.toNat % 2 ^ 62 := by
  simp only [strip, BitVec.toNat_ushiftRight, BitVec.toNat_shiftLeft, Nat.shiftLeft_eq,
    Nat.shiftRight_eq_div_pow]
  omega

theorem toNat_tag (w : Word) : (tag w).toNat = w.toNat / 2 ^ 62 := by
  simp only [tag, BitVec.toNat_ushiftRight, Nat.shiftRight_eq_div_pow]

/-- Or-ing a tag onto a stripped word adds it. -/
theorem toNat_strip_or (w : Word) (a : ℕ) (ha : a < 4) :
    (strip w ||| (BitVec.ofNat 64 a <<< 62)).toNat = 2 ^ 62 * a + w.toNat % 2 ^ 62 := by
  have hlt : w.toNat % 2 ^ 62 < 2 ^ 62 := Nat.mod_lt _ (by norm_num)
  have hsh : (BitVec.ofNat 64 a <<< 62).toNat = 2 ^ 62 * a := by
    simp only [BitVec.toNat_shiftLeft, BitVec.toNat_ofNat, Nat.shiftLeft_eq]
    omega
  rw [BitVec.toNat_or, hsh, toNat_strip, Nat.or_comm, ← Nat.two_pow_add_eq_or_of_lt hlt]

theorem toNat_moving (w : Word) : (moving w).toNat = 2 ^ 62 * 1 + w.toNat % 2 ^ 62 := by
  rw [moving]
  exact toNat_strip_or w 1 (by norm_num)

theorem toNat_reserved (w : Word) : (reserved w).toNat = 2 ^ 62 * 3 + w.toNat % 2 ^ 62 :=
  toNat_strip_or w 3 (by norm_num)

theorem toNat_entry (key : Key) : (entry key).toNat = key.toNat := by
  have := key.isLt
  simp only [entry, BitVec.toNat_setWidth]
  omega

theorem toNat_getKey (w : Word) : (getKey w).toNat = w.toNat % 2 ^ 32 := by
  have h : (0xFFFFFFFFFFFF : ℕ) = 2 ^ 48 - 1 := by norm_num
  simp only [getKey, BitVec.toNat_setWidth, BitVec.toNat_and, BitVec.toNat_ofNat]
  norm_num only [h]
  rw [h, Nat.and_two_pow_sub_one_eq_mod]
  omega

/-! ### Tags -/

theorem tag_eq_iff {w : Word} {a : ℕ} (ha : a < 4) :
    tag w = BitVec.ofNat 64 a ↔ w.toNat / 2 ^ 62 = a := by
  rw [← BitVec.toNat_inj, toNat_tag, BitVec.toNat_ofNat, Nat.mod_eq_of_lt (by omega)]

@[simp] theorem strip_zero : strip 0#64 = 0#64 := by decide

@[simp] theorem tag_zero : tag 0#64 = 0#64 := by decide

@[simp] theorem tag_strip (w : Word) : tag (strip w) = 0#64 := by
  rw [tag_eq_iff (by norm_num), toNat_strip]
  omega

@[simp] theorem tag_moving (w : Word) : tag (moving w) = 1#64 := by
  rw [tag_eq_iff (by norm_num), toNat_moving]
  omega

@[simp] theorem tag_reserved (w : Word) : tag (reserved w) = 3#64 := by
  rw [tag_eq_iff (by norm_num), toNat_reserved]
  omega

@[simp] theorem strip_strip (w : Word) : strip (strip w) = strip w := by
  apply BitVec.eq_of_toNat_eq
  simp only [toNat_strip]
  omega

@[simp] theorem strip_moving (w : Word) : strip (moving w) = strip w := by
  apply BitVec.eq_of_toNat_eq
  simp only [toNat_strip, toNat_moving]
  omega

@[simp] theorem moving_strip (w : Word) : moving (strip w) = moving w := by
  simp only [moving, strip_strip]

theorem strip_of_tag {w : Word} (h : tag w = 0#64) : strip w = w := by
  rw [tag_eq_iff (by norm_num)] at h
  apply BitVec.eq_of_toNat_eq
  rw [toNat_strip]
  omega

theorem moving_of_tag {w : Word} (h : tag w = 1#64) : moving w = w := by
  rw [tag_eq_iff (by norm_num)] at h
  apply BitVec.eq_of_toNat_eq
  rw [toNat_moving]
  omega

theorem reserved_of_tag {w : Word} (h : tag w = 3#64) : reserved w = w := by
  rw [tag_eq_iff (by norm_num)] at h
  apply BitVec.eq_of_toNat_eq
  rw [toNat_reserved]
  omega

theorem moving_inj {v w : Word} (hv : tag v = 0#64) (hw : tag w = 0#64)
    (h : moving v = moving w) : v = w := by
  rw [← strip_of_tag hv, ← strip_of_tag hw, ← strip_moving v, ← strip_moving w, h]

/-! ### Keys as words -/

@[simp] theorem tag_entry (key : Key) : tag (entry key) = 0#64 := by
  have := key.isLt
  rw [tag_eq_iff (by norm_num), toNat_entry]
  omega

/-- A word without a tag is not moving. -/
theorem ne_moving {v w : Word} (h : tag v = 0#64) : v ≠ moving w := by
  intro he
  rw [he, tag_moving] at h
  exact absurd h (by decide)

@[simp] theorem strip_entry (key : Key) : strip (entry key) = entry key :=
  strip_of_tag (tag_entry key)

/-- The word line 256 expects. -/
theorem moving_entry (key : Key) : moving (entry key) = entry key ||| (1#64 <<< 62) := by
  rw [moving, strip_entry]

@[simp] theorem getKey_entry (key : Key) : getKey (entry key) = key := by
  apply BitVec.eq_of_toNat_eq
  have := key.isLt
  rw [toNat_getKey, toNat_entry]
  omega

@[simp] theorem getKey_strip (w : Word) : getKey (strip w) = getKey w := by
  apply BitVec.eq_of_toNat_eq
  simp only [toNat_getKey, toNat_strip]
  omega

@[simp] theorem getKey_moving (w : Word) : getKey (moving w) = getKey w := by
  apply BitVec.eq_of_toNat_eq
  simp only [toNat_getKey, toNat_moving]
  omega

theorem entry_inj {k k' : Key} (h : entry k = entry k') : k = k' := by
  rw [← getKey_entry k, h, getKey_entry]

theorem entry_ne_zero {k : Key} (h : k ≠ 0#32) : entry k ≠ 0#64 := fun h0 => h (entry_inj h0)

/-- `CreateBucketEntry` with thread id 0 is the key with tag 3. -/
theorem newEntry_eq (key : Key) : newEntry key = reserved (entry key) := by
  rw [reserved, strip_entry]
  rfl

@[simp] theorem tag_newEntry (key : Key) : tag (newEntry key) = 3#64 := by
  rw [newEntry_eq, tag_reserved]

@[simp] theorem tag_random : tag random = 3#64 := tag_reserved _

@[simp] theorem tag_finalEntry (ts : Word) : tag (finalEntry ts) = 0#64 := tag_entry _

/-- The stamp of a removal is the counter's low 30 bits, without a tag. -/
theorem toNat_finalEntry (ts : Word) : (finalEntry ts).toNat = ts.toNat % 2 ^ 30 := by
  have h : (((ts.setWidth 32 <<< 2) >>> 2).setWidth 64 ||| (2#64 <<< 62)).setWidth 32 =
      (ts.setWidth 32 <<< 2) >>> 2 := by
    have h0 : (2#64 <<< 62).setWidth 32 = 0#32 := by decide
    rw [BitVec.setWidth_or, h0, BitVec.or_zero]
    exact BitVec.setWidth_setWidth_of_le _ (by norm_num)
  rw [finalEntry, toNat_entry, h]
  simp only [BitVec.toNat_ushiftRight, BitVec.toNat_shiftLeft, BitVec.toNat_setWidth,
    Nat.shiftLeft_eq, Nat.shiftRight_eq_div_pow]
  omega

/-- The header test never finds a removed slot: tag 2 shifts to -2. -/
theorem isRemoved_eq_false (w : Word) : isRemoved w = false := by
  have h : ∀ x : BitVec 16, (x.sshiftRight 14 == 2#16) = false := by
    intro x
    have hx : (x.sshiftRight 14).toInt = x.toInt / 2 ^ 14 := by
      simp [BitVec.toInt_sshiftRight, Int.shiftRight_eq_div_pow]
    have h1 := x.toInt_lt
    have h2 : x.sshiftRight 14 ≠ 2#16 := by
      intro he
      rw [he] at hx
      have h3 : (2#16).toInt = 2 := by decide
      rw [h3] at hx
      norm_num at h1
      omega
    simpa using h2
  exact h _

end LFHash
