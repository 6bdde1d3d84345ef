import Wasabi.Uefi.Encoding

/-!
# Every descriptor once

A call of `next` looks at the forty bytes under its cursor and moves on by the
stride of the firmware. Over a buffer that satisfies the contract each
descriptor is decoded once, and no byte between the descriptors or behind the
last one has any part in it.
-/

set_option autoImplicit false

namespace Wasabi.Uefi.Iterator
open Wasabi.Rust Wasabi.Iteration
open Wasabi.Uefi.MemoryMap Wasabi.Uefi.Encoding

section Agree
variable (buffer other : Buffer) (ofs : ℕ)

/-- The buffers agree on `len` bytes from `ofs` on. -/
def Agree (len : ℕ) : Prop :=
  ∀ i : Fin memoryMapBufferSize, ofs ≤ i.val → i.val < ofs+len → other i = buffer i

theorem readBytes_agree (len start width : ℕ) (h : Agree buffer other ofs len)
    (hstart : ofs ≤ start) (hstop : start+width ≤ ofs+len) :
    readBytes other start width = readBytes buffer start width := by
  unfold readBytes
  split_ifs with hfits
  · congr 2
    funext i
    have hi := i.isLt
    exact h _ (by simp only; omega) (by simp only; omega)
  · rfl

theorem decode_agree (h : Agree buffer other ofs descriptorBytes) :
    decodeDescriptor other ofs = decodeDescriptor buffer ofs := by
  have hw : descriptorBytes = 40 := rfl
  have hread : ∀ k ≤ 32, readU64 other (ofs+k) = readU64 buffer (ofs+k) := by
    intro k hk
    rw [readU64, readBytes_agree buffer other ofs _ (ofs+k) 8 h (by omega) (by omega), readU64]
  have hcode := hread 0 (by omega)
  rw [Nat.add_zero] at hcode
  simp only [decodeDescriptor, hcode, hread 8 (by omega), hread 16 (by omega),
    hread 24 (by omega), hread 32 (by omega)]

end Agree

/-- Iterating over `map` decodes `ds`, each descriptor once. -/
structure DecodesOnce (map : MemoryMapHolder) (ds : List EfiMemoryDescriptor) : Prop where
  count : ds.length = map.memoryMapSize/map.descriptorSize
  delivers : ∀ n, calls MemoryMapIterator.next n map.iter = .ok (answers ds n)
  decoding : ∀ (k : ℕ) (hk : k < ds.length), InRange ds[k] ∧
    readBytes map.memoryMapBuffer (k*map.descriptorSize) descriptorBytes =
      some (encodeDescriptor ds[k])
  inside : ∀ k < ds.length, k*map.descriptorSize+descriptorBytes ≤ map.memoryMapSize
  insensitive : ∀ other : MemoryMapHolder, other.memoryMapSize = map.memoryMapSize →
    other.descriptorSize = map.descriptorSize →
    (∀ k < ds.length, Agree map.memoryMapBuffer other.memoryMapBuffer (k*map.descriptorSize)
      descriptorBytes) →
    ∀ n, calls MemoryMapIterator.next n other.iter = calls MemoryMapIterator.next n map.iter

theorem shows_agree (map other : MemoryMapHolder) (ds : List EfiMemoryDescriptor)
    (h : Shows map ds) (hsize : other.memoryMapSize = map.memoryMapSize)
    (hstride : other.descriptorSize = map.descriptorSize)
    (hbytes : ∀ k < ds.length, Agree map.memoryMapBuffer other.memoryMapBuffer
      (k*map.descriptorSize) descriptorBytes) : Shows other ds := by
  refine ⟨?_,?_,?_,?_⟩
  · rw [hstride]
    exact h.stride
  · rw [hsize, hstride]
    exact h.size
  · rw [hsize]
    exact h.fits
  · intro k hk
    rw [hstride, decode_agree _ _ _ (hbytes k hk)]
    exact h.entry k hk

theorem shows_decodes (map : MemoryMapHolder) (ds : List EfiMemoryDescriptor) (h : Shows map ds)
    (hw : descriptorBytes ≤ map.descriptorSize) : DecodesOnce map ds := by
  have hcalls := calls_walk MemoryMapIterator.next map.iter ds (shown_walk map ds h)
  refine ⟨?_,hcalls,fun k hk => (decode_iff _ _ _).mp (h.entry k hk),?_,?_⟩
  · rw [h.size, Nat.mul_div_cancel _ h.stride]
  · intro k hk
    have hle : (k+1)*map.descriptorSize ≤ map.memoryMapSize := by
      rw [h.size]
      exact Nat.mul_le_mul_right _ hk
    rw [Nat.add_mul, Nat.one_mul] at hle
    omega
  · intro other hsize hstride hbytes n
    have hother := shows_agree map other ds h hsize hstride hbytes
    rw [hcalls n]
    exact calls_walk MemoryMapIterator.next other.iter ds (shown_walk other ds hother) n

/-- Iteration decodes every descriptor of a filled map once, and gives back
the list that a buffer encodes at whatever stride. -/
theorem iter_decodes :
    (∀ map : MemoryMapHolder, UefiContract map → DecodesOnce map (descriptors map)) ∧
    ∀ (f : FirmwareMap) (rest : Buffer) (map : MemoryMapHolder),
      map.memoryMapBuffer = copyInto f.bytes rest → map.memoryMapSize = f.bytes.length →
      map.descriptorSize = f.descriptorSize → f.bytes.length ≤ memoryMapBufferSize →
      DecodesOnce map f.descriptors ∧
      ∀ fuel > f.descriptors.length, enumerate fuel map = .ok f.descriptors := by
  constructor
  · intro map h
    exact shows_decodes map _ (contract_shows map h) h.stride
  · intro f rest map hbuffer hsize hstride hfits
    have h := copied_shows f map rest hbuffer hsize hstride hfits
    exact ⟨shows_decodes map _ h (hstride ▸ f.wide),
      fun fuel hfuel => enumerate_shown map _ h fuel hfuel⟩

/-- Two descriptors with sixteen bytes behind each. -/
def gapped : FirmwareMap where
  entries := [⟨⟨.conventionalMemory,0x1000,0,16,15⟩,List.replicate 16 0xff,by decide⟩,
    ⟨⟨.persistentMemory,2^40,2^63,1,0⟩,List.replicate 16 0xee,by decide⟩]
  descriptorSize := 56
  descriptorVersion := 1
  stride := by decide
  wide := by decide

def gappedHolder : MemoryMapHolder where
  memoryMapBuffer := copyInto gapped.bytes (fun _ => 0xcc)
  memoryMapSize := 112
  mapKey := 7
  descriptorSize := 56
  descriptorVersion := 1

theorem iter_decodes_gapped : DecodesOnce gappedHolder (descriptors gappedHolder) ∧
    DecodesOnce gappedHolder gapped.descriptors ∧
    enumerate 3 gappedHolder = .ok gapped.descriptors := by
  have hlen : gapped.bytes.length = 112 := by decide
  have hshows := copied_shows gapped gappedHolder (fun _ => 0xcc) rfl hlen.symm rfl (by decide)
  obtain ⟨hdecodes,henum⟩ :=
    iter_decodes.2 gapped (fun _ => 0xcc) gappedHolder rfl hlen.symm rfl (by decide)
  exact ⟨iter_decodes.1 gappedHolder (shows_contract _ _ hshows (by decide)),hdecodes,
    henum 3 (by decide)⟩

end Wasabi.Uefi.Iterator
