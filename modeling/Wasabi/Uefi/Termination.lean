import Wasabi.Uefi.Iterator
import Wasabi.Paging.InitPaging

/-!
# Walks that end

A new holder announces its capacity as the size of its map and has no stride,
so a walk over it stays at its first descriptor. A fetch replaces both, and
then the walk ends, and with it each of the three loops of the kernel.
-/

set_option autoImplicit false

namespace Wasabi.Uefi.Termination
open Wasabi.Rust Wasabi.Iteration Wasabi.Uefi.MemoryMap Wasabi.Uefi.Encoding Wasabi.Uefi.Iterator
open Wasabi.Uefi.BootServices
open Wasabi.Uefi.Exit (new_next)
open Wasabi.Allocator.FirstFit Wasabi.Paging.InitPaging

/-- What a successful fetch leaves in the holder. The contents of the buffer,
the key and the version are up to the firmware. -/
structure Fetched (map : MemoryMapHolder) : Prop where
  fits : map.memoryMapSize ≤ memoryMapBufferSize
  stride : descriptorBytes ≤ map.descriptorSize
  whole : map.descriptorSize ∣ map.memoryMapSize

/-- The holders that the public interface can produce, with the number of
successful fetches. -/
inductive Obtained : ℕ → MemoryMapHolder → Prop where
  | new : Obtained 0 MemoryMapHolder.new
  | default : Obtained 0 MemoryMapHolder.default
  | fetch (n : ℕ) (before after : MemoryMapHolder) :
      Obtained n before → Fetched after → Obtained (n+1) after

/-- The loop of `efi_main`, without what it prints. -/
def totalMemoryPages (fuel : ℕ) (memoryMap : MemoryMapHolder) : Eval ℕ :=
  forEach (fun total e =>
    if e.memoryType ≠ .conventionalMemory then pure total else checkedAdd total e.numberOfPages)
    fuel memoryMap.iter 0

/-- The first eight bytes of descriptor `k` are a value of the enumeration. -/
def ValidType (map : MemoryMapHolder) (k : ℕ) : Prop :=
  ∃ code ∈ readU64 map.memoryMapBuffer (k*map.descriptorSize), (EfiMemoryType.ofCode code).isSome

theorem fetched_next (map : MemoryMapHolder) (h : Fetched map) (k : ℕ)
    (hk : k < map.memoryMapSize/map.descriptorSize) :
    (∃ d, MemoryMapIterator.next ⟨map,k*map.descriptorSize⟩ =
      .ok (some d,⟨map,(k+1)*map.descriptorSize⟩) ∧ ValidType map k) ∨
    ∃ e, MemoryMapIterator.next ⟨map,k*map.descriptorSize⟩ = .error e ∧
      e = .undefinedBehaviour ∧ ¬ ValidType map k := by
  have hw : descriptorBytes = 40 := rfl
  have hf : memoryMapBufferSize = 0x8000 := rfl
  have hs := h.stride
  have hb := h.fits
  have hle : (k+1)*map.descriptorSize ≤ map.memoryMapSize :=
    (Nat.le_div_iff_mul_le (by omega)).mp hk
  rw [Nat.add_mul, Nat.one_mul] at hle
  rw [MemoryMapIterator.next, if_neg (by simp only; omega)]
  by_cases ht : ValidType map k
  · obtain ⟨d,hd⟩ := decode_inside map.memoryMapBuffer (k*map.descriptorSize) (by omega) ht
    refine Or.inl ⟨d,?_,ht⟩
    simp only [hd, deref_some, ok_bind]
    rw [checkedAdd_ok _ _ (by omega), Nat.add_mul, Nat.one_mul]
    rfl
  · have hnone : decodeDescriptor map.memoryMapBuffer (k*map.descriptorSize) = none := by
      cases hd : decodeDescriptor map.memoryMapBuffer (k*map.descriptorSize) with
      | none => rfl
      | some d => exact absurd (decode_type _ _ d hd) ht
    refine Or.inr ⟨.undefinedBehaviour,?_,rfl,ht⟩
    simp only [hnone]
    rfl

theorem fetched_end (map : MemoryMapHolder) (h : Fetched map) :
    MemoryMapIterator.next ⟨map,map.memoryMapSize/map.descriptorSize*map.descriptorSize⟩ =
      .ok (none,⟨map,map.memoryMapSize/map.descriptorSize*map.descriptorSize⟩) :=
  if_pos (le_of_eq (Nat.div_mul_cancel h.whole).symm)

/-- The walk over a fetched map passes all its descriptors, or stops in front
of the first one whose type is no value. -/
theorem fetched_walk (map : MemoryMapHolder) (h : Fetched map) :
    ∃ items stop, Walk MemoryMapIterator.next map.iter items stop ∧
      (stop = none ∧ items.length = map.memoryMapSize/map.descriptorSize ∨
        stop = some .undefinedBehaviour ∧
          items.length < map.memoryMapSize/map.descriptorSize ∧ ¬ ValidType map items.length) ∧
      ∀ k < items.length, ValidType map k := by
  obtain ⟨items,stop,hwalk,hitems,hstop⟩ := numbered_walk MemoryMapIterator.next
    (fun k => ⟨map,k*map.descriptorSize⟩) (map.memoryMapSize/map.descriptorSize)
    (fun k _ => ValidType map k) (fun k e => e = .undefinedBehaviour ∧ ¬ ValidType map k)
    (fetched_next map h) (fetched_end map h) 0 (Nat.zero_le _)
  simp only [Nat.zero_add, Nat.zero_mul] at hwalk hitems hstop
  refine ⟨items,stop,hwalk,?_,fun k hk => hitems k items[k] (List.getElem?_eq_getElem hk)⟩
  rcases hstop with hdone | ⟨e,hstop,hless,rfl,htype⟩
  · exact Or.inl hdone
  · exact Or.inr ⟨hstop,hless,htype⟩

/-- The computation does not run out of fuel. -/
def Ends {α : Type} (x : Eval α) : Prop := x ≠ .error .outOfFuel

theorem ends_bind {α β : Type} (x : Eval α) (f : α → Eval β) (hx : Ends x)
    (hf : ∀ a, Ends (f a)) : Ends (x >>= f) := bind_not_fault x f _ hx hf

theorem ends_pure {α : Type} (a : α) : Ends (pure a : Eval α) := fun h => nomatch h

theorem ends_checked (p : Prop) [Decidable p] (a : ℕ) (message : String) :
    Ends (if p then .ok a else .error (.panic message) : Eval ℕ) := by
  split_ifs
  · exact ends_pure a
  · intro h
    cases h

theorem readHeader_ends (m : HeaderMemory) (addr : ℕ) : Ends (readHeader m addr) := by
  rw [readHeader]
  cases ObjectMemory.load headerSize m addr with
  | none =>
    intro h
    cases h
  | some header => exact ends_pure header

theorem setNextHeader_ends (m : HeaderMemory) (addr : ℕ) (next : Option ℕ) :
    Ends (setNextHeader m addr next) := by
  apply ends_bind _ _ (readHeader_ends m addr)
  intro header
  cases header.nextHeader with
  | none => exact ends_pure _
  | some _ =>
    intro h
    cases h

theorem usableRange_ends (desc : EfiMemoryDescriptor) : Ends (usableRange desc) := by
  apply ends_bind _ _ (ends_checked _ _ _)
  intro size
  dsimp only
  split_ifs
  · exact ends_pure _
  · exact ends_pure _

theorem addFreeFromDescriptor_ends (heap : Heap) (desc : EfiMemoryDescriptor) :
    Ends (addFreeFromDescriptor heap desc) := by
  apply ends_bind _ _ (usableRange_ends desc)
  intro range
  cases range with
  | none => exact ends_pure heap
  | some range =>
    apply ends_bind _ _ (setNextHeader_ends _ _ _)
    intro m
    apply ends_bind _ _ (ends_bind _ _ (readHeader_ends _ _) (fun _ => ends_pure _))
    intro m
    apply ends_bind _ _ (ends_bind _ _ (readHeader_ends _ _) (fun _ => ends_pure _))
    intro m
    exact ends_bind _ _ (setNextHeader_ends _ _ _) (fun _ => ends_pure _)

theorem extend_ends (endOfMem : ℕ) (e : EfiMemoryDescriptor) : Ends (extend endOfMem e) := by
  unfold extend
  split_ifs
  · apply ends_bind _ _ (ends_checked _ _ _)
    intro size
    exact ends_bind _ _ (ends_checked _ _ _) (fun _ => ends_pure _)
  · exact ends_pure _

/-- A loop over a fetched map ends with fuel for one turn more than the map has
descriptors, if its body ends. -/
theorem forEach_ends (map : MemoryMapHolder) (h : Fetched map) {σ : Type}
    (body : σ → EfiMemoryDescriptor → Eval σ) (hbody : ∀ s d, Ends (body s d)) (s : σ)
    (fuel : ℕ) (hfuel : map.memoryMapSize/map.descriptorSize < fuel) :
    Ends (forEach body fuel map.iter s) := by
  obtain ⟨items,stop,hwalk,hstop,-⟩ := fetched_walk map h
  rw [Ends, forEach_loop]
  apply loop_ends _ _ body hbody map.iter items stop hwalk
  · rcases hstop with ⟨rfl,-⟩ | ⟨rfl,-⟩
    · simp
    · simp
  · omega

theorem obtained_fetched (n : ℕ) (map : MemoryMapHolder) (h : Obtained (n+1) map) :
    Fetched map := by
  cases h with
  | fetch n before after hbefore hafter => exact hafter

theorem obtained_capacity (n : ℕ) (map : MemoryMapHolder) (h : Obtained n map) :
    map.memoryMapSize ≤ memoryMapBufferSize := by
  cases h with
  | new => exact le_refl _
  | default => exact le_refl _
  | fetch n before after hbefore hafter => exact hafter.fits

theorem fill_fetched (c : Current) (holder : MemoryMapHolder)
    (h : c.size ≤ memoryMapBufferSize) : Fetched (fill c holder) := by
  have hlen : c.size = c.map.entries.length*c.map.descriptorSize := entries_length _ _ c.map.stride
  exact ⟨h,c.map.wide,⟨c.map.entries.length,by rw [Nat.mul_comm]; exact hlen⟩⟩

/-- The map that the exit loop returns to the kernel is a filled one, if the
buffer has room for the map at the fetch. -/
theorem returned_fetched (c : Current) (events : List Event)
    (hfit : (firstFetch c events).size ≤ MemoryMapHolder.new.memoryMapSize)
    (h : (run (start c MemoryMapHolder.new) events).kernel = .returned) :
    Fetched (run (start c MemoryMapHolder.new) events).holder := by
  rw [returned_holder c _ events h, getMemoryMap, if_pos hfit]
  exact fill_fetched _ _ hfit

/-- The walk over a holder that was filled at least once ends, whatever the
firmware wrote: at `None` behind all the descriptors, or where a type is no
value. So do the three loops of the kernel. -/
theorem walk_ends (n : ℕ) (map : MemoryMapHolder) (h : Obtained (n+1) map) :
    (∃ items : List EfiMemoryDescriptor,
      calls MemoryMapIterator.next items.length map.iter = .ok (items.map some) ∧
      (items.length = map.memoryMapSize/map.descriptorSize ∧
          (∀ m, calls MemoryMapIterator.next m map.iter = .ok (answers items m)) ∨
        items.length < map.memoryMapSize/map.descriptorSize ∧ ¬ ValidType map items.length ∧
          calls MemoryMapIterator.next (items.length+1) map.iter = .error .undefinedBehaviour)) ∧
    ∀ fuel > map.memoryMapSize/map.descriptorSize,
      (∀ (σ : Type) (body : σ → EfiMemoryDescriptor → Eval σ), (∀ s d, Ends (body s d)) →
        ∀ s, Ends (forEach body fuel map.iter s)) ∧
      (∀ heap, Ends (initWithMmap fuel heap map)) ∧
      (∀ endOfMem, Ends (forEach extend fuel map.iter endOfMem)) ∧
      Ends (totalMemoryPages fuel map) := by
  have hfetched := obtained_fetched n map h
  obtain ⟨items,stop,hwalk,hstop,-⟩ := fetched_walk map hfetched
  constructor
  · refine ⟨items,calls_items _ _ items stop hwalk,?_⟩
    rcases hstop with ⟨rfl,hlen⟩ | ⟨rfl,hless,htype⟩
    · exact Or.inl ⟨hlen,calls_walk _ _ items hwalk⟩
    · exact Or.inr ⟨hless,htype,calls_fail _ _ items _ hwalk⟩
  · intro fuel hfuel
    refine ⟨fun σ body hbody s => forEach_ends map hfetched body hbody s fuel hfuel,?_,?_,?_⟩
    · intro heap
      apply forEach_ends map hfetched _ _ heap fuel hfuel
      intro s d
      split_ifs
      · exact ends_pure s
      · exact addFreeFromDescriptor_ends s d
    · intro endOfMem
      exact forEach_ends map hfetched extend extend_ends endOfMem fuel hfuel
    · apply forEach_ends map hfetched _ _ 0 fuel hfuel
      intro total d
      split_ifs
      · exact ends_pure total
      · exact ends_checked _ _ _

theorem walk_ends_gapped :
    (∃ items : List EfiMemoryDescriptor,
      calls MemoryMapIterator.next items.length gappedHolder.iter = .ok (items.map some) ∧
      (items.length = 112/56 ∧
          (∀ m, calls MemoryMapIterator.next m gappedHolder.iter = .ok (answers items m)) ∨
        items.length < 112/56 ∧ ¬ ValidType gappedHolder items.length ∧
          calls MemoryMapIterator.next (items.length+1) gappedHolder.iter =
            .error .undefinedBehaviour)) ∧
    ∀ fuel > 112/56,
      (∀ (σ : Type) (body : σ → EfiMemoryDescriptor → Eval σ), (∀ s d, Ends (body s d)) →
        ∀ s, Ends (forEach body fuel gappedHolder.iter s)) ∧
      (∀ heap, Ends (initWithMmap fuel heap gappedHolder)) ∧
      (∀ endOfMem, Ends (forEach extend fuel gappedHolder.iter endOfMem)) ∧
      Ends (totalMemoryPages fuel gappedHolder) :=
  walk_ends 0 gappedHolder (.fetch 0 .new gappedHolder .new ⟨by decide,by decide,by decide⟩)

/-- A descriptor whose type code is 15. -/
def strangeHolder : MemoryMapHolder where
  memoryMapBuffer := fun i => if i.val = 0 then 15 else 0
  memoryMapSize := 48
  mapKey := 0
  descriptorSize := 48
  descriptorVersion := 1

theorem strange_next : MemoryMapIterator.next strangeHolder.iter = .error .undefinedBehaviour := by
  have hd : decodeDescriptor strangeHolder.memoryMapBuffer 0 = none := by decide
  rw [MemoryMapIterator.next, if_neg (by decide)]
  simp only [MemoryMapHolder.iter, hd]
  rfl

/-- The walk over a new holder never gets to `None`, and none of the three
loops ends on it; nor does the walk get there where a type is no value. -/
theorem unfilled_never_ends :
    (Obtained 0 MemoryMapHolder.new ∧
      (¬ ∃ n items, calls MemoryMapIterator.next n MemoryMapHolder.new.iter = .ok items ∧
        none ∈ items) ∧
      (¬ ∃ fuel heap, Ends (initWithMmap fuel heap MemoryMapHolder.new)) ∧
      (¬ ∃ fuel endOfMem, Ends (forEach extend fuel MemoryMapHolder.new.iter endOfMem)) ∧
      ¬ ∃ fuel, Ends (totalMemoryPages fuel MemoryMapHolder.new)) ∧
    Obtained 1 strangeHolder ∧
      ¬ ∃ n items, calls MemoryMapIterator.next n strangeHolder.iter = .ok items ∧
        none ∈ items := by
  refine ⟨⟨.new,?_,?_,?_,?_⟩,.fetch 0 .new _ .new ⟨by decide,by decide,by decide⟩,?_⟩
  · rintro ⟨n,items,hcalls,hnone⟩
    rw [calls_never _ _ _ new_next n] at hcalls
    cases hcalls
    simp at hnone
  · rintro ⟨fuel,heap,hends⟩
    apply hends
    rw [initWithMmap, forEach_loop]
    exact loop_never _ _ _ _ _ new_next heap rfl fuel
  · rintro ⟨fuel,endOfMem,hends⟩
    apply hends
    rw [forEach_loop]
    exact loop_never _ _ _ _ _ new_next endOfMem rfl fuel
  · rintro ⟨fuel,hends⟩
    apply hends
    rw [totalMemoryPages, forEach_loop]
    exact loop_never _ _ _ _ _ new_next 0 rfl fuel
  · rintro ⟨n,items,hcalls,hnone⟩
    cases n with
    | zero =>
      cases hcalls
      simp at hnone
    | succ n =>
      rw [calls, strange_next] at hcalls
      cases hcalls

end Wasabi.Uefi.Termination
