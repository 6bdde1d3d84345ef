import Wasabi.Rust
import Wasabi.Support.TableTree
import Wasabi.Support.Outcome

/-!
# The page tables of the kernel

Tables live in a memory of their own, by address, with the 64-bit values of
their 512 entries. `Box::new` is a parameter that picks the address of a new
table or fails. An `Err` keeps the tables written so far; reading through an
entry that does not hold a table is undefined.
-/

set_option autoImplicit false

namespace Wasabi.Paging.PageTable
open Wasabi.Rust Wasabi.WordBits Wasabi.Outcome

def pageSize : ℕ := 4096

def attrMask : ℕ := 0xFFF

def attrPresent : ℕ := 1 <<< 0

def attrWritable : ℕ := 1 <<< 1

def attrWriteThrough : ℕ := 1 <<< 3

def attrCacheDisable : ℕ := 1 <<< 4

inductive PageAttr where
  | notPresent
  | readWriteKernel
  | readWriteIo
  deriving DecidableEq, Repr

def PageAttr.value : PageAttr → ℕ
  | .notPresent => 0
  | .readWriteKernel => attrPresent ||| attrWritable
  | .readWriteIo => attrPresent ||| attrWritable ||| attrWriteThrough ||| attrCacheDisable

abbrev TableMemory := ℕ → Option (Fin 512 → ℕ)

abbrev Build (α : Type) := Stateful String TableMemory Fault α

def lift {α : Type} (x : Eval α) : Build α := fun m => do
  let a ← x
  pure (.ok a,m)

def readValue (table : ℕ) (index : Fin 512) : Build ℕ := fun m => do
  let t ← deref (m table)
  pure (.ok (t index),m)

def writeValue (table : ℕ) (index : Fin 512) (value : ℕ) : Build Unit := fun m => do
  let _ ← deref (m table)
  pure (.ok (),TableTree.write m table index value)

def isPresent (value : ℕ) : Bool := value &&& (1 <<< 0) != 0

def isWritable (value : ℕ) : Bool := value &&& (1 <<< 1) != 0

def tableMut (table : ℕ) (index : Fin 512) : Build ℕ := do
  let value ← readValue table index
  if isPresent value then pure (value &&& complement 64 attrMask)
  else throw "Page Not Found"

def setPage (table : ℕ) (index : Fin 512) (phys : ℕ) (attr : PageAttr) : Build Unit :=
  if phys &&& attrMask ≠ 0 then throw "phys is not aligned"
  else writeValue table index (phys ||| attr.value)

section Box
variable (boxNew : TableMemory → Option ℕ)

/-- `Box::into_raw(Box::new(zeroed))` for a table. -/
def newTable : Build ℕ := fun m =>
  match boxNew m with
  | none => .error .outOfMemory
  | some a => .ok (.ok a,TableTree.grow m a 0)

def populate (table : ℕ) (index : Fin 512) : Build Unit := do
  let value ← readValue table index
  if isPresent value then throw "Page is already populate"
  else
    let next ← newTable boxNew
    writeValue table index (next ||| PageAttr.readWriteKernel.value)

def ensurePopulated (table : ℕ) (index : Fin 512) : Build Unit := do
  let value ← readValue table index
  if isPresent value then pure () else populate boxNew table index

/-- The mask keeps the index below 512, so indexing never panics. -/
def calcIndex (shift addr : ℕ) : Fin 512 :=
  ⟨(addr >>> shift) &&& 0x1ff,Nat.and_lt_two_pow _ (by decide : 0x1ff < 2^9)⟩

/-- `table.entry[index].ensure_populated()?.table_mut()?`. -/
def nextTable (table : ℕ) (index : Fin 512) : Build ℕ := do
  ensurePopulated boxNew table index
  tableMut table index

/-- The body of the loop in `create_mapping`. -/
def mapPage (root virtStart phys : ℕ) (attr : PageAttr) (addr : ℕ) : Build Unit := do
  let table ← nextTable boxNew root (calcIndex 39 addr)
  let table ← nextTable boxNew table (calcIndex 30 addr)
  let table ← nextTable boxNew table (calcIndex 21 addr)
  let sum ← lift (checkedAdd phys addr)
  let phys ← lift (checkedSub sum virtStart)
  setPage table (calcIndex 12 addr) phys attr

/-- `(start..stop).step_by(step)`. -/
def stepBy (start stop step : ℕ) : List ℕ := List.range' start ((stop-start+step-1)/step) step

def createMapping (root virtStart virtEnd phys : ℕ) (attr : PageAttr) : Build Unit :=
  if virtStart &&& attrMask ≠ 0 then throw "Invalid virt_start"
  else if virtEnd &&& attrMask ≠ 0 then throw "Invalid virt_start"
  else if phys &&& attrMask ≠ 0 then throw "Invalid phys"
  else (stepBy virtStart virtEnd pageSize).forM (mapPage boxNew root virtStart phys attr)

/-- `PML4::new()`. -/
def newPml4 : Build ℕ := newTable boxNew

end Box

/-- The table that the processor finds behind an entry. -/
def link (value : ℕ) : Option ℕ :=
  if isPresent value then some (value &&& complement 64 attrMask) else none

/-- The frame and the attribute bits that a last-level entry gives. -/
def leaf (value : ℕ) : Option (ℕ × ℕ) :=
  if isPresent value then some (value &&& complement 64 attrMask,value &&& attrMask) else none

def path (v : ℕ) : List (Fin 512) := [calcIndex 39 v,calcIndex 30 v,calcIndex 21 v]

/-- The four-level walk of the processor, which stops at a non-present entry. -/
def walk (m : TableMemory) (root v : ℕ) : Option (ℕ × ℕ) :=
  TableTree.read link leaf m root (path v) (calcIndex 12 v)

/-- The table or frame that the processor finds for a write. -/
def writeLink (value : ℕ) : Option ℕ :=
  if isPresent value && isWritable value then some (value &&& complement 64 attrMask) else none

/-- The walk for a write demands the writable bit at every level. -/
def writeWalk (m : TableMemory) (root v : ℕ) : Option ℕ :=
  TableTree.read writeLink writeLink m root (path v) (calcIndex 12 v)

/-- What `Box::new` promises: the address of a zeroed table that no live table
uses, aligned as the table type demands and within physical memory. -/
def FreshBoxes (boxNew : TableMemory → Option ℕ) : Prop :=
  ∀ m a, boxNew m = some a → 4096 ∣ a ∧ a < 2^52 ∧ m a = none

end Wasabi.Paging.PageTable
