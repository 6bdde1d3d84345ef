import Wasabi.Paging.PageTable

/-!
# Reading tables that others built

The kernel looks at the tables of the firmware before it installs its own.
Their entries may be large pages or carry flags in the upper bits, which the
processor takes into account and `next_level` does not. Frame zero is a table
like any other for the processor, but a null reference for the kernel. The two
walks are compared on arbitrary contents.
-/

set_option autoImplicit false

namespace Wasabi.Paging.NextLevel
open Wasabi.WordBits Wasabi.Paging.PageTable

/-- The 512 entries behind any address. -/
abbrev Contents := ℕ → Fin 512 → BitVec 64

/-- `entry.get(index)`. -/
def getEntry (contents : Contents) (table index : ℕ) : Option ℕ :=
  if h : index < 512 then some (contents table ⟨index,h⟩).toNat else none

/-- A pointer taken for a reference. The null pointer is the `None` of an
`Option` of a reference. -/
def reference (address : ℕ) : Option ℕ := if address = 0 then none else some address

/-- `Entry::table`, with the address for the reference. -/
def table (value : ℕ) : Except String (Option ℕ) :=
  if isPresent value then .ok (reference (value &&& complement 64 attrMask))
  else .error "Page Not Found"

def nextLevel (contents : Contents) (self index : ℕ) : Option ℕ :=
  (getEntry contents self index).bind (fun e => (table e).toOption.join)

/-- `t.and_then(|t| t.next_level(index))` for each index in turn. -/
def nextLevels (contents : Contents) (root : ℕ) (indices : List ℕ) : Option ℕ :=
  indices.foldlM (nextLevel contents) root

def pageSizeBit (value : ℕ) : Bool := value.testBit 7

/-- Bits 51 to 12. -/
def addressBits (value : ℕ) : ℕ := value%2^52/4096*4096

/-- The table that an entry of a level leads to for the processor. -/
def hardwareLink (level value : ℕ) : Option ℕ :=
  if 2 ≤ level ∧ isPresent value = true ∧ (level = 4 ∨ pageSizeBit value = false) then
    some (addressBits value) else none

def hardwareStep (contents : Contents) (level t index : ℕ) : Option ℕ :=
  (getEntry contents t index).bind (hardwareLink level)

/-- The table that the processor reaches, one level further down each time. -/
def hardwareWalk (contents : Contents) : ℕ → ℕ → List ℕ → Option ℕ
  | _, t, [] => some t
  | level, t, index::indices =>
    (hardwareStep contents level t index).bind
      (fun t' => hardwareWalk contents (level-1) t' indices)

/-- An entry that both walks read alike. One that leads to a table has its
upper bits clear and a frame that is not zero. A large page is passed over only
at frame zero with its upper bits clear. -/
def Plain (level value : ℕ) : Prop :=
  if level = 4 ∨ pageSizeBit value = false then 4096 ≤ value ∧ value < 2^52 else value < 4096

theorem getEntry_lt (contents : Contents) (t index value : ℕ)
    (h : getEntry contents t index = some value) : value < 2^64 := by
  unfold getEntry at h
  split_ifs at h
  cases h
  exact BitVec.isLt _

theorem reference_some (a b : ℕ) : reference a = some b ↔ a ≠ 0 ∧ a = b := by
  unfold reference
  split_ifs with h
  · simp [h]
  · simp [h]

theorem reference_none (a : ℕ) : reference a = none ↔ a = 0 := by
  unfold reference
  split_ifs with h
  · simp [h]
  · simp [h]

theorem link_agrees_iff (level value : ℕ) (hl : 2 ≤ level) (hv : value < 2^64) :
    (table value).toOption.join = hardwareLink level value ↔
      (isPresent value = true → Plain level value) := by
  unfold table hardwareLink
  cases hp : isPresent value with
  | false => simp [Except.toOption]
  | true =>
    have haddr : value &&& complement 64 attrMask = value-value%4096 :=
      and_complement_mask 64 12 value (by decide) hv
    rw [if_pos rfl, haddr]
    simp only [Except.toOption, Option.join_some, true_implies, Plain]
    by_cases hps : level = 4 ∨ pageSizeBit value = false
    · rw [if_pos ⟨hl,trivial,hps⟩, if_pos hps, reference_some, addressBits]
      omega
    · rw [if_neg (fun h => hps h.2.2), if_neg hps, reference_none]
      omega

theorem step_agrees_iff (contents : Contents) (level t index : ℕ) (hl : 2 ≤ level) :
    nextLevel contents t index = hardwareStep contents level t index ↔
      ∀ value, getEntry contents t index = some value → isPresent value = true →
        Plain level value := by
  unfold nextLevel hardwareStep
  cases he : getEntry contents t index with
  | none => simp
  | some value =>
    rw [Option.bind_some, Option.bind_some,
      link_agrees_iff level value hl (getEntry_lt contents t index value he)]
    simp

theorem nextLevels_snoc (contents : Contents) (root : ℕ) (p : List ℕ) (i : ℕ) :
    nextLevels contents root (p++[i]) =
      (nextLevels contents root p).bind (fun t => nextLevel contents t i) := by
  simp [nextLevels, List.foldlM_append]

theorem hardwareWalk_snoc (contents : Contents) (level t : ℕ) (p : List ℕ) (i : ℕ) :
    hardwareWalk contents level t (p++[i]) = (hardwareWalk contents level t p).bind
      (fun t' => hardwareStep contents (level-p.length) t' i) := by
  induction p generalizing level t with
  | nil =>
    simp [hardwareWalk]
  | cons j p ih =>
    simp only [List.cons_append, hardwareWalk]
    have hlevel : level-1-p.length = level-(p.length+1) := by omega
    rw [Option.bind_assoc, List.length_cons, ← hlevel]
    congr 1
    funext t'
    exact ih (level-1) t'

/-- Along any three indices or fewer the walks agree at every point exactly
if each present entry that the processor meets is plain. -/
theorem walks_agree_iff (contents : Contents) (root : ℕ) (indices : List ℕ)
    (hl : indices.length ≤ 3) :
    (∀ p, p <+: indices → nextLevels contents root p = hardwareWalk contents 4 root p) ↔
    ∀ p i, p++[i] <+: indices → ∀ t value, hardwareWalk contents 4 root p = some t →
      getEntry contents t i = some value → isPresent value = true → Plain (4-p.length) value := by
  constructor
  · intro h p i hp t value ht he hv
    have hlen := hp.length_le
    rw [List.length_append, List.length_singleton] at hlen
    have hstep := h (p++[i]) hp
    have hbefore := h p ((List.prefix_append p [i]).trans hp)
    rw [nextLevels_snoc, hardwareWalk_snoc, hbefore, ht] at hstep
    exact (step_agrees_iff contents (4-p.length) t i (by omega)).mp hstep value he hv
  · intro h p hp
    induction p using List.reverseRecOn with
    | nil => rfl
    | append_singleton p i ih =>
      have hlen := hp.length_le
      rw [List.length_append, List.length_singleton] at hlen
      have hbefore := ih ((List.prefix_append p [i]).trans hp)
      rw [nextLevels_snoc, hardwareWalk_snoc, hbefore]
      cases ht : hardwareWalk contents 4 root p with
      | none => rfl
      | some t =>
        exact (step_agrees_iff contents (4-p.length) t i (by omega)).mpr
          (fun value he hv => h p i hp t value ht he hv)

/-- Behind the first entry of the root the large page of the second gibibyte;
the second entry of the root forbids execution, the third leads to frame zero. -/
def firmwareTables : Contents := fun t i =>
  if t = 0x1000 ∧ i = 0 then 0x2003
  else if t = 0x1000 ∧ i = 1 then 0x8000000000002003
  else if t = 0x1000 ∧ i = 2 then 0x3
  else if t = 0x2000 ∧ i = 0 then 0x40000083 else 0

theorem walks_agree_iff_firmware :
    (∀ p, p <+: [0,0] →
      nextLevels firmwareTables 0x1000 p = hardwareWalk firmwareTables 4 0x1000 p) ↔
    ∀ p i, p++[i] <+: [0,0] → ∀ t value, hardwareWalk firmwareTables 4 0x1000 p = some t →
      getEntry firmwareTables t i = some value → isPresent value = true →
      Plain (4-p.length) value :=
  walks_agree_iff firmwareTables 0x1000 [0,0] (by decide)

theorem firmware_misread : nextLevels firmwareTables 0x1000 [0,0] = some 0x40000000 ∧
    hardwareWalk firmwareTables 4 0x1000 [0,0] = none ∧
    nextLevels firmwareTables 0x1000 [1] = some 0x8000000000002000 ∧
    hardwareWalk firmwareTables 4 0x1000 [1] = some 0x2000 ∧
    nextLevels firmwareTables 0x1000 [2] = none ∧
    hardwareWalk firmwareTables 4 0x1000 [2] = some 0 := by decide

end Wasabi.Paging.NextLevel
