/-
# The operations of the table

`contains`, `BucketInsert`, `Relocate`, `add` and `Remove` of `LFHash`, one
access to `Buckets` (or to `timeStamp`) after the other. A control point stands
right before an access and carries the locals that are live there; what a
function computes between two accesses belongs to the access before. `Relocate`
and `BucketInsert` run inside `add`, and so does `contains`.

`Buckets` has a word at every index: an index past `TotalBuckets` is outside
the array (`Inside`). Indices stay far below 2^32 when they are added to; the
subtractions that may wrap are `sub32`.
-/
import LFHash.Interleave
import LFHash.Murmur

namespace LFHash

open Interleave

/-- What the threads share: the array `Buckets` and the counter `timeStamp`. -/
inductive Cell
  | bucket (i : ℕ)
  | timeStamp
  deriving DecidableEq

inductive Exit
  | insertionFailure
  | sameSlot
  | resize
  | needRehashing
  deriving DecidableEq

abbrev Ans := Reply Word

/-! ### `contains`, lines 206 to 224 -/

/-- The bitmap `cxx`, in the one word libstdc++ keeps it in. -/
def setBit (cxx : Word) (p : ℕ) : Word := cxx ||| (1#64 <<< p)

/-- The scan of a window: the next offset, and the offsets found. -/
structure Scan where
  p : ℕ
  cxx : Word
  deriving DecidableEq

def Scan.start : Scan := ⟨0, 0#64⟩

/-- Line 219. -/
def contains (seed : BitVec 32) (key : Key) (s : Scan) : Point Cell Word Scan Bool Exit :=
  (.load (.bucket (home seed key + s.p)), fun r =>
    let cxx := if r.val = entry key ∨ r.val = moving (entry key) then setBit s.cxx s.p else s.cxx
    if s.p < HOP then .goto ⟨s.p + 1, cxx⟩ else .ret (cxx != 0#64))

/-! ### `BucketInsert`, lines 105 to 140 -/

/-- `cached` is `cachedEntry`, once it is assigned. -/
inductive Insert
  | first (tag : Word) (cached : Option Word) (p : ℕ)
  | claim (tag : Word) (cached : Option Word) (p : ℕ)
  | second (cached : Option Word) (p : ℕ)
  | reuse (slot : Word) (p : ℕ)
  deriving DecidableEq

/-- A call of `BucketInsert` begins: `tag` is 0. -/
def Insert.start : Insert := .first 0#64 none 0

/-- The first loop goes on to its next slot, or the second loop begins. -/
def Insert.nextFirst (tag : Word) (cached : Option Word) (p : ℕ) : Insert :=
  if p < HOP then .first tag cached (p + 1) else .second cached 0

/-- `BucketInsert(BaseBucket, key)`. -/
def bucketInsert (BaseBucket : ℕ) (key : Key) : Insert → Point Cell Word Insert Bool Exit
  | .first tag cached p => (.load (.bucket (BaseBucket + p)), fun r =>  -- 117
      let cached := if isRemoved r.val then some r.val else cached
      if r.val = 0#64 then .goto (.claim tag cached p) else .goto (.nextFirst tag cached p))
  | .claim tag cached p => (.cas (.bucket (BaseBucket + p)) tag (entry key), fun r =>  -- 123
      -- a failed compare-exchange leaves the word it found in `tag`
      if r.ok then .ret true else .goto (.nextFirst r.val cached p))
  | .second cached p => (.load (.bucket (BaseBucket + p)), fun r =>  -- 129
      if isRemoved r.val then
        if some r.val ≠ cached then .ret false else .goto (.reuse r.val p)
      else if p < HOP then .goto (.second cached (p + 1)) else .exit .needRehashing)
  | .reuse slot p => (.cas (.bucket (BaseBucket + p)) slot (entry key), fun r =>  -- 136
      .ret r.ok)

/-! ### `Relocate`, lines 171 to 204 -/

inductive Relocate
  | getInd (Replace Ind : ℕ)
  | getReplace (Replace : ℕ)
  | loadExp (Replace : ℕ)
  | mark (Replace : ℕ) (Exp : Word)
  | loadDest (Replace : ℕ)
  | loadFin (Replace : ℕ) (Dest : Word)
  | copy (Replace : ℕ) (Dest Fin : Word)
  | loadMark (Replace : ℕ)
  | overwrite (Replace : ℕ) (Exp : Word)
  deriving DecidableEq

/-- `Replace` and `Ind` start at `Loc - H`. -/
def Relocate.start (Loc : ℕ) : Relocate := .getInd (sub32 Loc HOP) (sub32 Loc HOP)

/-- `HopDist` of the word `w` for the slot `Loc`: how far `Loc` is above the
home of the key in `w`. -/
def hopDist (seed : BitVec 32) (Loc : ℕ) (w : Word) : ℕ := sub32 Loc (home seed (getKey w))

/-- The candidate test, lines 181 and 186: go on to the next slot, give up, or
take the slot `Replace`. -/
def seek (Loc Replace HopDist : ℕ) : Flow Relocate ℕ Exit :=
  if HOP ≤ HopDist ∧ Replace < Loc then .goto (.getReplace (Replace + 1))
  else if HOP < HopDist ∨ Loc ≤ Replace then .exit .resize
  else .goto (.loadExp Replace)

/-- `Relocate(Loc, NewEntry)`. -/
def relocate (seed : BitVec 32) (Loc : ℕ) (NewEntry : Word) :
    Relocate → Point Cell Word Relocate ℕ Exit
  | .getInd Replace Ind => (.load (.bucket Ind), fun r =>  -- 179
      seek Loc Replace (hopDist seed Loc r.val))
  | .getReplace Replace => (.load (.bucket Replace), fun r =>  -- 183
      seek Loc Replace (hopDist seed Loc r.val))
  | .loadExp Replace => (.load (.bucket Replace), fun r =>  -- 187
      .goto (.mark Replace (strip r.val)))
  | .mark Replace Exp => (.cas (.bucket Replace) Exp (moving Exp), fun r =>  -- 191
      -- `Ind` moves on to the next slot, `Replace` does not
      if r.ok then .goto (.loadDest Replace) else .goto (.getInd Replace (Replace + 1)))
  | .loadDest Replace => (.load (.bucket Loc), fun r =>  -- 193
      .goto (.loadFin Replace (reserved r.val)))
  | .loadFin Replace Dest => (.load (.bucket Replace), fun r =>  -- 195
      .goto (.copy Replace Dest (strip r.val)))
  | .copy Replace Dest Fin => (.cas (.bucket Loc) Dest Fin, fun _ =>  -- 197
      .goto (.loadMark Replace))
  | .loadMark Replace => (.load (.bucket Replace), fun r =>  -- 199
      .goto (.overwrite Replace (moving r.val)))
  | .overwrite Replace Exp => (.cas (.bucket Replace) Exp NewEntry, fun _ =>  -- 201
      .ret Replace)

/-! ### `add`, lines 141 to 169 -/

inductive Add
  | contains (s : Scan)
  | probe (tag : Word) (SlotIndex trails : ℕ)
  | reserve (tag : Word) (SlotIndex trails : ℕ)
  | relocate (Loc : ℕ) (p : Relocate)
  | loadExp (SlotIndex : ℕ)
  | release (SlotIndex : ℕ) (Exp : Word)
  | insert (p : Insert)
  deriving DecidableEq

/-- The test `trails++ < ADD_RANGE` of the probe. -/
def Add.probeNext (tag : Word) (SlotIndex trails : ℕ) : Add :=
  if trails < ADD_RANGE then .probe tag SlotIndex (trails + 1)
  else .reserve tag SlotIndex (trails + 1)

/-- Lines 158 and 163: a slot more than `H` above the home is relocated, a
nearer one is released. -/
def Add.settle (seed : BitVec 32) (key : Key) (SlotIndex : ℕ) : Add :=
  if HOP < sub32 SlotIndex (home seed key) then .relocate SlotIndex (.start SlotIndex)
  else .loadExp SlotIndex

/-- Line 157, after the reservation loop. -/
def Add.reserved (seed : BitVec 32) (key : Key) (SlotIndex trails : ℕ) : Flow Add Bool Exit :=
  if ADD_RANGE ≤ trails then .exit .insertionFailure else .goto (.settle seed key SlotIndex)

/-- `add(key)`. -/
def add (seed : BitVec 32) (key : Key) : Add → Point Cell Word Add Bool Exit
  | .contains s => (contains seed key s).inside .contains fun found =>  -- 149
      if found then .ret true else .goto (.probeNext 0#64 (home seed key) 0)
  | .probe tag SlotIndex trails => (.load (.bucket SlotIndex), fun r =>  -- 153
      if r.val ≠ 0#64 then .goto (.probeNext tag (SlotIndex + 1) trails)
      else .goto (.reserve tag SlotIndex trails))
  | .reserve tag SlotIndex trails => (.cas (.bucket SlotIndex) tag (newEntry key), fun r =>  -- 156
      -- a failed compare-exchange leaves the word it found in `tag`
      if !r.ok && decide (trails < ADD_RANGE) then .goto (.probeNext r.val SlotIndex trails)
      else Add.reserved seed key SlotIndex trails)
  | .relocate Loc p => (LFHash.relocate seed Loc (newEntry key) p).inside (.relocate Loc)
      fun SlotIndex =>  -- 161
        if Loc = SlotIndex then .exit .sameSlot else .goto (.settle seed key SlotIndex)
  | .loadExp SlotIndex => (.load (.bucket SlotIndex), fun r =>  -- 165
      .goto (.release SlotIndex r.val))
  | .release SlotIndex Exp => (.cas (.bucket SlotIndex) Exp 0#64, fun _ =>  -- 166
      .goto (.insert .start))
  | .insert p => (bucketInsert (home seed key) key p).inside .insert fun inserted =>  -- 167
      if inserted then .ret true else .goto (.insert .start)

/-! ### `Remove`, lines 225 to 264 -/

/-- `cxx._Find_first()`: `HOP` if no bit is set. -/
def findFirst (cxx : Word) : ℕ := ((List.range 64).find? fun q => cxx.getLsbD q).getD HOP

/-- `cxx._Find_next(prev)`. -/
def findNext (cxx : Word) (prev : ℕ) : ℕ :=
  ((List.range 64).find? fun q => decide (prev < q) && cxx.getLsbD q).getD HOP

inductive Remove
  | stamp
  | testKey (final : Word) (s : Scan)
  | testMoving (final : Word) (s : Scan)
  | removeKey (final : Word) (i1 i2 : ℕ)
  | removeMoving (final : Word) (i2 : ℕ) (rem1 : Bool)
  | loadSlot (p : ℕ) (rem : Bool)
  | testSlot (p : ℕ) (slot : Word) (rem : Bool)
  | poison (p : ℕ) (slot : Word) (rem : Bool)
  deriving DecidableEq

/-- The scan goes on to its next slot, or ends in the two indices. -/
def Remove.nextScan (final : Word) (p : ℕ) (cxx : Word) : Remove :=
  if p < HOP then .testKey final ⟨p + 1, cxx⟩
  else .removeKey final (findFirst cxx) (findNext cxx (findFirst cxx))

/-- The last loop goes on to its next slot, or the call returns. -/
def Remove.nextSlot (p : ℕ) (rem : Bool) : Flow Remove Bool Exit :=
  if p < HOP then .goto (.loadSlot (p + 1) rem) else .ret rem

/-- `Remove(key, tid)`, which does not read `tid`. -/
def remove (seed : BitVec 32) (key : Key) : Remove → Point Cell Word Remove Bool Exit
  | .stamp => (.fetch .timeStamp (· + 1#64), fun r =>  -- 229
      .goto (.testKey (finalEntry r.val) .start))
  | .testKey final s => (.load (.bucket (home seed key + s.p)), fun r =>  -- 246, left
      if r.val = entry key then .goto (.nextScan final s.p (setBit s.cxx s.p))
      else .goto (.testMoving final s))
  | .testMoving final s => (.load (.bucket (home seed key + s.p)), fun r =>  -- 246, right
      if r.val = moving (entry key) then .goto (.nextScan final s.p (setBit s.cxx s.p))
      else .goto (.nextScan final s.p s.cxx))
  | .removeKey final i1 i2 =>
      (.cas (.bucket (home seed key + i1)) (entry key) final, fun r =>  -- 253
        .goto (.removeMoving final i2 r.ok))
  | .removeMoving final i2 rem1 =>
      (.cas (.bucket (home seed key + i2)) (entry key ||| (1#64 <<< 62)) final, fun r =>  -- 256
        .goto (.loadSlot 0 (rem1 || r.ok)))
  | .loadSlot p rem => (.load (.bucket (home seed key + p)), fun r =>  -- 259
      .goto (.testSlot p (LFHash.reserved r.val) rem))
  | .testSlot p slot rem => (.load (.bucket (home seed key + p)), fun r =>  -- 261
      if tag r.val = 3#64 then .goto (.poison p slot rem) else Remove.nextSlot p rem)
  | .poison p slot rem => (.cas (.bucket (home seed key + p)) slot random, fun _ =>  -- 262
      Remove.nextSlot p rem)

/-! ### The machine -/

inductive Call
  | add (key : Key)
  | remove (key : Key) (tid : ℤ)
  | contains (key : Key)
  deriving DecidableEq

def Call.key : Call → Key
  | add key => key
  | remove key _ => key
  | contains key => key

/-- Only calls with non-zero keys begin. -/
def NonZero : Label Call → Prop
  | .call _ c => c.key ≠ 0#32
  | .move _ => True

instance : DecidablePred NonZero
  | .call _ c => inferInstanceAs (Decidable (c.key ≠ 0#32))
  | .move _ => isTrue trivial

inductive Pc
  | add (key : Key) (p : Add)
  | remove (key : Key) (tid : ℤ) (p : Remove)
  | contains (key : Key) (s : Scan)
  deriving DecidableEq

def Pc.start : Call → Pc
  | .add key => .add key (.contains .start)
  | .remove key tid => .remove key tid .stamp
  | .contains key => .contains key .start

def Pc.code (seed : BitVec 32) : Pc → Point Cell Word Pc (Call × Bool) Exit
  | .add key p => (LFHash.add seed key p).inside (.add key) fun b => .ret (.add key, b)
  | .remove key tid p =>
      (LFHash.remove seed key p).inside (.remove key tid) fun b => .ret (.remove key tid, b)
  | .contains key s =>
      (LFHash.contains seed key s).inside (.contains key) fun b => .ret (.contains key, b)

/-- The table with the seed its constructor drew. -/
def table (seed : BitVec 32) : Machine Cell Word Call Pc (Call × Bool) Exit where
  start := Pc.start
  code := Pc.code seed

abbrev State := Config Cell Word Pc (Call × Bool) Exit

def buckets (m : Cell → Word) (i : ℕ) : Word := m (.bucket i)

def fresh : State := ⟨fun _ => 0#64, fun _ => none, [], none⟩

/-- The lines 123, 136, 156, 166, 191, 197, 201 and 262 call `compare_exchange_weak`; the
lines 253 and 256 do not. -/
def Pc.isWeak : Pc → Bool
  | .add _ (.insert (.claim _ _ _)) | .add _ (.insert (.reuse _ _)) => true
  | .add _ (.reserve _ _ _) | .add _ (.release _ _) => true
  | .add _ (.relocate _ (.mark _ _)) | .add _ (.relocate _ (.copy _ _ _)) => true
  | .add _ (.relocate _ (.overwrite _ _)) | .remove _ _ (.poison _ _ _) => true
  | .add _ (.contains _) | .add _ (.probe _ _ _) | .add _ (.loadExp _) => false
  | .add _ (.insert (.first _ _ _)) | .add _ (.insert (.second _ _)) => false
  | .add _ (.relocate _ (.getInd _ _)) | .add _ (.relocate _ (.getReplace _)) => false
  | .add _ (.relocate _ (.loadExp _)) | .add _ (.relocate _ (.loadDest _)) => false
  | .add _ (.relocate _ (.loadFin _ _)) | .add _ (.relocate _ (.loadMark _)) => false
  | .remove _ _ .stamp | .remove _ _ (.testKey _ _) | .remove _ _ (.testMoving _ _) => false
  | .remove _ _ (.removeKey _ _ _) | .remove _ _ (.removeMoving _ _ _) => false
  | .remove _ _ (.loadSlot _ _) | .remove _ _ (.testSlot _ _ _) | .contains _ _ => false

end LFHash
