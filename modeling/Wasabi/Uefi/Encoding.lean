import Wasabi.Uefi.MemoryMap

/-!
# What the firmware writes into the buffer

The firmware serialises its map entry by entry, little endian, with the same
stride for all entries and arbitrary bytes in the gaps. Copying the map over
the front of any buffer makes the buffer show exactly its descriptors.
-/

set_option autoImplicit false

namespace Wasabi.Uefi.Encoding
open Wasabi.LittleEndian Wasabi.Uefi.MemoryMap

def code (t : EfiMemoryType) : ℕ := EfiMemoryType.all.idxOf t

theorem ofCode_code (t : EfiMemoryType) : EfiMemoryType.ofCode (code t) = some t := by
  cases t <;> rfl

theorem code_ofCode (c : ℕ) (t : EfiMemoryType) (h : EfiMemoryType.ofCode c = some t) :
    c = code t := by
  obtain ⟨hlt,ht⟩ := List.getElem?_eq_some_iff.mp h
  rw [code, ← ht, List.Nodup.idxOf_getElem (by decide)]

theorem code_lt (t : EfiMemoryType) : code t < 2^64 := by
  cases t <;> decide

/-- The fields fit into 64 bits. -/
structure InRange (d : EfiMemoryDescriptor) : Prop where
  physicalStart : d.physicalStart < 2^64
  virtualStart : d.virtualStart < 2^64
  numberOfPages : d.numberOfPages < 2^64
  attributes : d.attributes < 2^64

instance (d : EfiMemoryDescriptor) : Decidable (InRange d) :=
  decidable_of_iff (d.physicalStart < 2^64 ∧ d.virtualStart < 2^64 ∧ d.numberOfPages < 2^64 ∧
    d.attributes < 2^64)
    ⟨fun ⟨h1,h2,h3,h4⟩ => ⟨h1,h2,h3,h4⟩,fun ⟨h1,h2,h3,h4⟩ => ⟨h1,h2,h3,h4⟩⟩

def encodeDescriptor (d : EfiMemoryDescriptor) : List UInt8 :=
  encode 8 (code d.memoryType)++(encode 8 d.physicalStart++(encode 8 d.virtualStart++
    (encode 8 d.numberOfPages++encode 8 d.attributes)))

@[simp] theorem encodeDescriptor_length (d : EfiMemoryDescriptor) :
    (encodeDescriptor d).length = descriptorBytes := by
  simp [encodeDescriptor, descriptorBytes]

theorem readBytes_length (buffer : Buffer) (ofs len : ℕ) (bs : List UInt8)
    (h : readBytes buffer ofs len = some bs) : bs.length = len := by
  unfold readBytes at h
  split_ifs at h with hfits
  cases h
  simp

/-- Reading on where another read ended. -/
theorem readBytes_append_iff (buffer : Buffer) (ofs m n : ℕ) (as bs : List UInt8)
    (hm : as.length = m) : readBytes buffer ofs (m+n) = some (as++bs) ↔
      readBytes buffer ofs m = some as ∧ readBytes buffer (ofs+m) n = some bs := by
  have hsplit (h : ofs+(m+n) ≤ memoryMapBufferSize) :
      (List.ofFn fun i : Fin (m+n) => buffer ⟨ofs+i,by omega⟩) =
        (List.ofFn fun i : Fin m => buffer ⟨ofs+i,by omega⟩)++
          List.ofFn fun i : Fin n => buffer ⟨ofs+m+i,by omega⟩ := by
    rw [List.ofFn_add]
    simp [Nat.add_assoc]
  unfold readBytes
  by_cases h : ofs+(m+n) ≤ memoryMapBufferSize
  · rw [dif_pos h, dif_pos (by omega), dif_pos (by omega), Option.some.injEq, Option.some.injEq,
      Option.some.injEq, hsplit h]
    constructor
    · intro heq
      exact List.append_inj heq (by rw [List.length_ofFn, hm])
    · rintro ⟨h1,h2⟩
      rw [h1, h2]
  · rw [dif_neg h]
    constructor
    · intro heq
      cases heq
    · rintro ⟨-,h2⟩
      rw [dif_neg (by omega)] at h2
      cases h2

/-- A word is read exactly if its eight bytes encode it. -/
theorem readU64_iff (buffer : Buffer) (ofs x : ℕ) : readU64 buffer ofs = some x ↔
    x < 2^64 ∧ readBytes buffer ofs 8 = some (encode 8 x) := by
  have hw : (256:ℕ)^8 = 2^64 := by norm_num
  constructor
  · intro h
    obtain ⟨bs,hbs,rfl⟩ := Option.map_eq_some_iff.mp h
    have hlen := readBytes_length buffer ofs 8 bs hbs
    have hvalue := encode_value bs
    have hlt := value_lt bs
    rw [hlen] at hvalue hlt
    rw [hvalue]
    exact ⟨hlt.trans_eq hw,hbs⟩
  · rintro ⟨hlt,hbs⟩
    rw [readU64, hbs, Option.map_some, value_encode 8 x (hlt.trans_eq hw.symm)]

theorem decode_fields (buffer : Buffer) (ofs : ℕ) (d : EfiMemoryDescriptor) :
    decodeDescriptor buffer ofs = some d ↔ readU64 buffer ofs = some (code d.memoryType) ∧
      readU64 buffer (ofs+8) = some d.physicalStart ∧
      readU64 buffer (ofs+16) = some d.virtualStart ∧
      readU64 buffer (ofs+24) = some d.numberOfPages ∧
      readU64 buffer (ofs+32) = some d.attributes := by
  constructor
  · intro h
    obtain ⟨c,hc,h⟩ := Option.bind_eq_some_iff.mp h
    obtain ⟨t,ht,h⟩ := Option.bind_eq_some_iff.mp h
    obtain ⟨p,hp,h⟩ := Option.bind_eq_some_iff.mp h
    obtain ⟨v,hv,h⟩ := Option.bind_eq_some_iff.mp h
    obtain ⟨n,hn,h⟩ := Option.bind_eq_some_iff.mp h
    obtain ⟨a,ha,h⟩ := Option.bind_eq_some_iff.mp h
    cases h
    rw [code_ofCode c t ht] at hc
    exact ⟨hc,hp,hv,hn,ha⟩
  · rintro ⟨hc,hp,hv,hn,ha⟩
    simp [decodeDescriptor, hc, hp, hv, hn, ha, ofCode_code]

/-- A descriptor is read exactly if its forty bytes encode it. -/
theorem decode_iff (buffer : Buffer) (ofs : ℕ) (d : EfiMemoryDescriptor) :
    decodeDescriptor buffer ofs = some d ↔
      InRange d ∧ readBytes buffer ofs descriptorBytes = some (encodeDescriptor d) := by
  have hpieces : readBytes buffer ofs descriptorBytes = some (encodeDescriptor d) ↔
      readBytes buffer ofs 8 = some (encode 8 (code d.memoryType)) ∧
      readBytes buffer (ofs+8) 8 = some (encode 8 d.physicalStart) ∧
      readBytes buffer (ofs+16) 8 = some (encode 8 d.virtualStart) ∧
      readBytes buffer (ofs+24) 8 = some (encode 8 d.numberOfPages) ∧
      readBytes buffer (ofs+32) 8 = some (encode 8 d.attributes) := by
    rw [← readBytes_append_iff buffer (ofs+24) 8 8 _ _ (encode_length 8 _),
      ← readBytes_append_iff buffer (ofs+16) 8 16 _ _ (encode_length 8 _),
      ← readBytes_append_iff buffer (ofs+8) 8 24 _ _ (encode_length 8 _),
      ← readBytes_append_iff buffer ofs 8 32 _ _ (encode_length 8 _)]
    rfl
  rw [decode_fields, hpieces]
  simp only [readU64_iff]
  constructor
  · rintro ⟨⟨-,hc⟩,⟨hp,hp'⟩,⟨hv,hv'⟩,⟨hn,hn'⟩,ha,ha'⟩
    exact ⟨⟨hp,hv,hn,ha⟩,hc,hp',hv',hn',ha'⟩
  · rintro ⟨⟨hp,hv,hn,ha⟩,hc,hp',hv',hn',ha'⟩
    exact ⟨⟨code_lt _,hc⟩,⟨hp,hp'⟩,⟨hv,hv'⟩,⟨hn,hn'⟩,ha,ha'⟩

/-- A descriptor with the bytes that follow it up to the next stride. -/
structure Entry where
  descriptor : EfiMemoryDescriptor
  gap : List UInt8
  inRange : InRange descriptor

def Entry.bytes (e : Entry) : List UInt8 := encodeDescriptor e.descriptor++e.gap

/-- A memory map of the firmware. -/
structure FirmwareMap where
  entries : List Entry
  descriptorSize : ℕ
  descriptorVersion : ℕ
  stride : ∀ e ∈ entries, e.bytes.length = descriptorSize
  wide : descriptorBytes ≤ descriptorSize

def FirmwareMap.descriptors (f : FirmwareMap) : List EfiMemoryDescriptor :=
  f.entries.map Entry.descriptor

def FirmwareMap.bytes (f : FirmwareMap) : List UInt8 := f.entries.flatMap Entry.bytes

/-- A map with eight bytes between its descriptors. -/
def FirmwareMap.padded (ds : List EfiMemoryDescriptor) (h : ∀ d ∈ ds, InRange d) :
    FirmwareMap where
  entries := ds.pmap (fun d hd => ⟨d,List.replicate 8 0,hd⟩) h
  descriptorSize := 48
  descriptorVersion := 1
  stride := by
    intro e he
    obtain ⟨d,hd,rfl⟩ := List.mem_pmap.mp he
    simp [Entry.bytes, descriptorBytes]
  wide := by decide

@[simp] theorem padded_descriptors (ds : List EfiMemoryDescriptor) (h : ∀ d ∈ ds, InRange d) :
    (FirmwareMap.padded ds h).descriptors = ds := by
  simp [FirmwareMap.descriptors, FirmwareMap.padded, List.map_pmap]

def copyInto (bytes : List UInt8) (buffer : Buffer) : Buffer :=
  fun i => bytes[i.val]?.getD (buffer i)

theorem entries_length (es : List Entry) (n : ℕ) (h : ∀ e ∈ es, e.bytes.length = n) :
    (es.flatMap Entry.bytes).length = es.length*n := by
  induction es with
  | nil => simp
  | cons e es ih =>
    rw [List.flatMap_cons, List.length_append, h e (by simp),
      ih (fun d hd => h d (by simp [hd])), List.length_cons, Nat.add_mul, Nat.one_mul, Nat.add_comm]

/-- A piece of the copied bytes is read back as it stands. -/
theorem readBytes_copyInto (pre mid post : List UInt8) (buffer : Buffer)
    (h : (pre++(mid++post)).length ≤ memoryMapBufferSize) :
    readBytes (copyInto (pre++(mid++post)) buffer) pre.length mid.length = some mid := by
  simp only [List.length_append] at h
  rw [readBytes, dif_pos (by omega)]
  congr 1
  apply List.ext_getElem (by simp)
  intro i h1 h2
  simp only [List.getElem_ofFn, copyInto]
  rw [List.getElem?_append_right (by omega), Nat.add_sub_cancel_left,
    List.getElem?_append_left h2, List.getElem?_eq_getElem h2, Option.getD_some]

theorem decode_copyInto (pre post bytes : List UInt8) (d : EfiMemoryDescriptor) (hd : InRange d)
    (buffer : Buffer) (hb : bytes = pre++(encodeDescriptor d++post))
    (h : bytes.length ≤ memoryMapBufferSize) :
    decodeDescriptor (copyInto bytes buffer) pre.length = some d := by
  rw [hb] at h ⊢
  have hread := readBytes_copyInto pre (encodeDescriptor d) post buffer h
  rw [encodeDescriptor_length] at hread
  exact (decode_iff _ _ d).mpr ⟨hd,hread⟩

/-- A holder whose buffer starts with the bytes of the map shows its
descriptors, whatever the rest of the buffer holds. -/
theorem copied_shows (f : FirmwareMap) (holder : MemoryMapHolder) (buffer : Buffer)
    (hb : holder.memoryMapBuffer = copyInto f.bytes buffer)
    (hs : holder.memoryMapSize = f.bytes.length) (hd : holder.descriptorSize = f.descriptorSize)
    (hf : f.bytes.length ≤ memoryMapBufferSize) : Shows holder f.descriptors := by
  have hlen : f.bytes.length = f.entries.length*f.descriptorSize := entries_length _ _ f.stride
  refine ⟨?_,?_,?_,?_⟩
  · rw [hd]
    exact lt_of_lt_of_le (by decide) f.wide
  · rw [hs, hd, hlen, FirmwareMap.descriptors, List.length_map]
  · rw [hs]
    exact hf
  · intro k hk
    rw [FirmwareMap.descriptors, List.length_map] at hk
    have hsplit : f.entries = f.entries.take k++(f.entries[k] :: f.entries.drop (k+1)) := by
      rw [List.cons_getElem_drop_succ, List.take_append_drop]
    have hbytes : f.bytes = (f.entries.take k).flatMap Entry.bytes++
        (encodeDescriptor f.entries[k].descriptor++
          (f.entries[k].gap++(f.entries.drop (k+1)).flatMap Entry.bytes)) := by
      rw [FirmwareMap.bytes]
      conv_lhs => rw [hsplit]
      rw [List.flatMap_append, List.flatMap_cons, Entry.bytes, List.append_assoc]
    have hpre : ((f.entries.take k).flatMap Entry.bytes).length = k*f.descriptorSize := by
      rw [entries_length _ f.descriptorSize (fun e he => f.stride e (List.mem_of_mem_take he)),
        List.length_take, Nat.min_eq_left hk.le]
    have hdec := decode_copyInto _ _ f.bytes _ f.entries[k].inRange buffer hbytes hf
    rw [hpre] at hdec
    rw [hb, hd, hdec]
    simp [FirmwareMap.descriptors]

end Wasabi.Uefi.Encoding
