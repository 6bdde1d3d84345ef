import Wasabi.Rust
import Wasabi.Support.LittleEndian
import Wasabi.Support.Iteration

/-!
# The UEFI memory map and its iterator

The holder keeps the raw buffer that the firmware fills. Iteration reads a
descriptor at each stride, in place, and trusts the firmware for the size,
the stride and the type codes. The contract below is what it trusts.
-/

set_option autoImplicit false

namespace Wasabi.Uefi.MemoryMap
open Wasabi.Rust Wasabi.Iteration

inductive EfiMemoryType where
  | reserved
  | loadedCode
  | loadedData
  | bootServiceCode
  | bootServiceData
  | runtimeServicesCode
  | runtimeServicesData
  | conventionalMemory
  | unusableMemory
  | acpiReclaimMemory
  | acpiMemoryNvs
  | memoryMappedIo
  | memoryMappedIoPortSpace
  | palCode
  | persistentMemory
  deriving DecidableEq, Repr, Inhabited

def EfiMemoryType.all : List EfiMemoryType :=
  [.reserved, .loadedCode, .loadedData, .bootServiceCode, .bootServiceData,
    .runtimeServicesCode, .runtimeServicesData, .conventionalMemory, .unusableMemory,
    .acpiReclaimMemory, .acpiMemoryNvs, .memoryMappedIo, .memoryMappedIoPortSpace,
    .palCode, .persistentMemory]

/-- The discriminants are consecutive from zero; no other code is a value. -/
def EfiMemoryType.ofCode (code : ℕ) : Option EfiMemoryType := EfiMemoryType.all[code]?

structure EfiMemoryDescriptor where
  memoryType : EfiMemoryType
  physicalStart : ℕ
  virtualStart : ℕ
  numberOfPages : ℕ
  attributes : ℕ
  deriving DecidableEq, Repr, Inhabited

/-- `size_of::<EfiMemoryDescriptor>()`. -/
def descriptorBytes : ℕ := 40

def memoryMapBufferSize : ℕ := 0x8000

abbrev Buffer := Fin memoryMapBufferSize → UInt8

structure MemoryMapHolder where
  memoryMapBuffer : Buffer
  memoryMapSize : ℕ
  mapKey : ℕ
  descriptorSize : ℕ
  descriptorVersion : ℕ

def MemoryMapHolder.new : MemoryMapHolder where
  memoryMapBuffer := fun _ => 0
  memoryMapSize := memoryMapBufferSize
  mapKey := 0
  descriptorSize := 0
  descriptorVersion := 0

def MemoryMapHolder.default : MemoryMapHolder := .new

structure MemoryMapIterator where
  map : MemoryMapHolder
  ofs : ℕ

def MemoryMapHolder.iter (map : MemoryMapHolder) : MemoryMapIterator := ⟨map,0⟩

def readBytes (buffer : Buffer) (ofs len : ℕ) : Option (List UInt8) :=
  if h : ofs+len ≤ memoryMapBufferSize then
    some (List.ofFn fun i : Fin len => buffer ⟨ofs+i,by omega⟩) else none

def readU64 (buffer : Buffer) (ofs : ℕ) : Option ℕ :=
  (readBytes buffer ofs 8).map LittleEndian.value

/-- The reference into the buffer is a value only if its bytes are inside
and its type code is one of the enumeration. -/
def decodeDescriptor (buffer : Buffer) (ofs : ℕ) : Option EfiMemoryDescriptor := do
  let code ← readU64 buffer ofs
  let memoryType ← EfiMemoryType.ofCode code
  let physicalStart ← readU64 buffer (ofs+8)
  let virtualStart ← readU64 buffer (ofs+16)
  let numberOfPages ← readU64 buffer (ofs+24)
  let attributes ← readU64 buffer (ofs+32)
  pure ⟨memoryType,physicalStart,virtualStart,numberOfPages,attributes⟩

/-- The stride of the firmware is a multiple of 8, so that the references are
aligned; only their bytes are checked here. -/
def MemoryMapIterator.next (it : MemoryMapIterator) :
    Eval (Option EfiMemoryDescriptor × MemoryMapIterator) :=
  if it.map.memoryMapSize ≤ it.ofs then .ok (none,it) else do
    let e ← deref (decodeDescriptor it.map.memoryMapBuffer it.ofs)
    let ofs ← checkedAdd it.ofs it.map.descriptorSize
    pure (some e,{it with ofs := ofs})

/-- `for e in it { body }`. -/
def forEach {σ : Type} (body : σ → EfiMemoryDescriptor → Eval σ) :
    ℕ → MemoryMapIterator → σ → Eval σ
  | 0, _, _ => .error .outOfFuel
  | fuel+1, it, s => do
    match ← it.next with
    | (none,_) => pure s
    | (some e,it) => do
      let s ← body s e
      forEach body fuel it s

/-- The firmware filled the holder: whole descriptors at a stride that has
room for them, inside the buffer, with type codes of the enumeration. Strides
that are no multiple of 8 are covered as well, though no firmware has them. -/
structure UefiContract (map : MemoryMapHolder) : Prop where
  stride : descriptorBytes ≤ map.descriptorSize
  whole : map.descriptorSize ∣ map.memoryMapSize
  fits : map.memoryMapSize ≤ memoryMapBufferSize
  types : ∀ k < map.memoryMapSize/map.descriptorSize,
    ∃ code ∈ readU64 map.memoryMapBuffer (k*map.descriptorSize),
      (EfiMemoryType.ofCode code).isSome

/-- The descriptors of a filled map, in the order of the buffer. -/
def descriptors (map : MemoryMapHolder) : List EfiMemoryDescriptor :=
  (List.range (map.memoryMapSize/map.descriptorSize)).filterMap
    (fun k => decodeDescriptor map.memoryMapBuffer (k*map.descriptorSize))

theorem readU64_inside (buffer : Buffer) (ofs : ℕ) (h : ofs+8 ≤ memoryMapBufferSize) :
    ∃ x, readU64 buffer ofs = some x := by
  simp [readU64, readBytes, h]

theorem decode_inside (buffer : Buffer) (ofs : ℕ) (h : ofs+descriptorBytes ≤ memoryMapBufferSize)
    (ht : ∃ code ∈ readU64 buffer ofs, (EfiMemoryType.ofCode code).isSome) :
    ∃ d, decodeDescriptor buffer ofs = some d := by
  obtain ⟨code,hcode,hty⟩ := ht
  obtain ⟨ty,hty⟩ := Option.isSome_iff_exists.mp hty
  unfold descriptorBytes at h
  obtain ⟨p,hp⟩ := readU64_inside buffer (ofs+8) (by omega)
  obtain ⟨v,hv⟩ := readU64_inside buffer (ofs+16) (by omega)
  obtain ⟨n,hn⟩ := readU64_inside buffer (ofs+24) (by omega)
  obtain ⟨a,ha⟩ := readU64_inside buffer (ofs+32) (by omega)
  exact ⟨⟨ty,p,v,n,a⟩,by
    rw [Option.mem_def] at hcode
    simp [decodeDescriptor, hcode, hty, hp, hv, hn, ha]⟩

/-- The buffer shows the list `ds`, one descriptor at each stride. -/
structure Shows (map : MemoryMapHolder) (ds : List EfiMemoryDescriptor) : Prop where
  stride : 0 < map.descriptorSize
  size : map.memoryMapSize = ds.length*map.descriptorSize
  fits : map.memoryMapSize ≤ memoryMapBufferSize
  entry : ∀ (k : ℕ) (hk : k < ds.length),
    decodeDescriptor map.memoryMapBuffer (k*map.descriptorSize) = some ds[k]

theorem contract_shows (map : MemoryMapHolder) (h : UefiContract map) :
    Shows map (descriptors map) := by
  have hs := h.stride
  have hpos : 0 < map.descriptorSize := lt_of_lt_of_le (by decide) hs
  have hd : ∀ k < map.memoryMapSize/map.descriptorSize,
      ∃ d, decodeDescriptor map.memoryMapBuffer (k*map.descriptorSize) = some d := by
    intro k hk
    apply decode_inside _ _ _ (h.types k hk)
    have hm : (k+1)*map.descriptorSize ≤ map.memoryMapSize :=
      (Nat.le_div_iff_mul_le hpos).mp hk
    have hf := h.fits
    rw [Nat.add_mul, Nat.one_mul] at hm
    omega
  choose! g hg using hd
  have hl : descriptors map = (List.range (map.memoryMapSize/map.descriptorSize)).map g :=
    List.filterMap_eq_map_iff_forall_eq_some.mpr (fun k hk => hg k (List.mem_range.mp hk))
  refine ⟨hpos,?_,h.fits,?_⟩
  · rw [hl, List.length_map, List.length_range, Nat.div_mul_cancel h.whole]
  · intro k hk
    simp only [hl, List.length_map, List.length_range] at hk ⊢
    simpa using hg k hk

theorem next_shown (map : MemoryMapHolder) (ds : List EfiMemoryDescriptor) (h : Shows map ds)
    (k : ℕ) (hk : k < ds.length) :
    MemoryMapIterator.next ⟨map,k*map.descriptorSize⟩ =
      .ok (some ds[k],⟨map,(k+1)*map.descriptorSize⟩) := by
  have hp := h.stride
  have hlt : (k+1)*map.descriptorSize ≤ map.memoryMapSize := by
    rw [h.size]
    exact Nat.mul_le_mul_right _ hk
  have hf : memoryMapBufferSize = 0x8000 := rfl
  have hb := h.fits
  rw [Nat.add_mul, Nat.one_mul] at hlt
  simp only [MemoryMapIterator.next, h.entry k hk, deref_some, ok_bind]
  rw [if_neg (by omega), checkedAdd_ok _ _ (by omega), Nat.add_mul, Nat.one_mul]
  rfl

theorem next_end (map : MemoryMapHolder) (ds : List EfiMemoryDescriptor) (h : Shows map ds) :
    MemoryMapIterator.next ⟨map,ds.length*map.descriptorSize⟩ =
      .ok (none,⟨map,ds.length*map.descriptorSize⟩) :=
  if_pos (le_of_eq h.size)

/-- The walk over a shown map is the list shown. -/
theorem shown_walk (map : MemoryMapHolder) (ds : List EfiMemoryDescriptor) (h : Shows map ds) :
    Walk MemoryMapIterator.next map.iter ds none := by
  have hstep : ∀ k < ds.length,
      (∃ d, MemoryMapIterator.next ⟨map,k*map.descriptorSize⟩ =
        .ok (some d,⟨map,(k+1)*map.descriptorSize⟩) ∧ ds[k]? = some d) ∨
      ∃ e, MemoryMapIterator.next ⟨map,k*map.descriptorSize⟩ = .error e ∧ False := by
    intro k hk
    exact Or.inl ⟨ds[k],next_shown map ds h k hk,List.getElem?_eq_getElem hk⟩
  obtain ⟨items,stop,hwalk,hitems,hstop⟩ := numbered_walk MemoryMapIterator.next
    (fun k => ⟨map,k*map.descriptorSize⟩) ds.length (fun k d => ds[k]? = some d) (fun _ _ => False)
    hstep (next_end map ds h) 0 (by omega)
  simp only [Nat.zero_add, Nat.zero_mul] at hwalk hitems hstop
  obtain ⟨rfl,hlen⟩ := hstop.resolve_right (fun ⟨_,_,_,hno⟩ => hno)
  have hsame : items = ds := by
    apply List.ext_getElem hlen
    intro j h1 h2
    have hj := hitems j items[j] (List.getElem?_eq_getElem h1)
    rw [List.getElem?_eq_getElem h2] at hj
    exact (Option.some.inj hj).symm
  rw [← hsame]
  exact hwalk

theorem forEach_loop {σ : Type} (body : σ → EfiMemoryDescriptor → Eval σ) (fuel : ℕ)
    (it : MemoryMapIterator) (s : σ) : forEach body fuel it s =
      loop MemoryMapIterator.next Fault.outOfFuel body fuel it s := by
  induction fuel generalizing it s with
  | zero => rfl
  | succ fuel ih =>
    rw [forEach, loop]
    congr 1
    funext answer
    obtain ⟨item,it⟩ := answer
    cases item with
    | none => rfl
    | some d =>
      change (body s d >>= fun s => forEach body fuel it s) = _
      congr 1
      funext s'
      exact ih it s'

/-- A loop over a shown map is the fold over its descriptors. -/
theorem forEach_shown (map : MemoryMapHolder) (ds : List EfiMemoryDescriptor) (h : Shows map ds)
    {σ : Type} (body : σ → EfiMemoryDescriptor → Eval σ) (fuel : ℕ) (hf : ds.length < fuel)
    (s : σ) : forEach body fuel map.iter s = ds.foldlM body s := by
  rw [forEach_loop, loop_walk _ _ body map.iter ds none (shown_walk map ds h) fuel hf s]
  cases ds.foldlM body s <;> rfl

theorem shows_descriptors (map : MemoryMapHolder) (ds : List EfiMemoryDescriptor)
    (h : Shows map ds) : descriptors map = ds := by
  have hn : map.memoryMapSize/map.descriptorSize = ds.length := by
    rw [h.size, Nat.mul_div_cancel _ h.stride]
  have hl : descriptors map = (List.range ds.length).map
      (fun k => ds.getD k default) := by
    rw [descriptors, hn]
    apply List.filterMap_eq_map_iff_forall_eq_some.mpr
    intro k hk
    have hlt := List.mem_range.mp hk
    simp [h.entry k hlt, hlt]
  rw [hl]
  apply List.ext_getElem (by simp)
  intro k h1 h2
  simp [h2]

theorem decode_type (buffer : Buffer) (ofs : ℕ) (d : EfiMemoryDescriptor)
    (h : decodeDescriptor buffer ofs = some d) :
    ∃ code ∈ readU64 buffer ofs, (EfiMemoryType.ofCode code).isSome := by
  obtain ⟨code,hcode,h⟩ := Option.bind_eq_some_iff.mp h
  obtain ⟨ty,hty,-⟩ := Option.bind_eq_some_iff.mp h
  exact ⟨code,hcode,by rw [hty]; rfl⟩

theorem shows_contract (map : MemoryMapHolder) (ds : List EfiMemoryDescriptor) (h : Shows map ds)
    (hw : descriptorBytes ≤ map.descriptorSize) : UefiContract map := by
  refine ⟨hw,⟨ds.length,by rw [h.size, Nat.mul_comm]⟩,h.fits,?_⟩
  intro k hk
  rw [h.size, Nat.mul_div_cancel _ h.stride] at hk
  exact decode_type _ _ _ (h.entry k hk)

/-- All that the iterator yields, in order. -/
def enumerate (fuel : ℕ) (map : MemoryMapHolder) : Eval (List EfiMemoryDescriptor) :=
  forEach (fun seen d => pure (seen++[d])) fuel map.iter []

theorem foldlM_snoc (ds seen : List EfiMemoryDescriptor) :
    ds.foldlM (fun seen d => (pure (seen++[d]) : Eval _)) seen = .ok (seen++ds) := by
  induction ds generalizing seen with
  | nil => simp
  | cons d ds ih =>
    rw [List.foldlM_cons, pure_eq, ok_bind, ih]
    simp

theorem enumerate_shown (map : MemoryMapHolder) (ds : List EfiMemoryDescriptor) (h : Shows map ds)
    (fuel : ℕ) (hf : ds.length < fuel) : enumerate fuel map = .ok ds := by
  rw [enumerate, forEach_shown map ds h _ fuel hf, foldlM_snoc, List.nil_append]

end Wasabi.Uefi.MemoryMap
