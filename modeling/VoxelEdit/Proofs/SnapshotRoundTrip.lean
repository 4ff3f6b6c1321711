import VoxelEdit.Proofs.ClipboardPalette
import VoxelEdit.Proofs.ExactReading
import VoxelEdit.Proofs.StoredRegion

/-!
# Stored clipboards are read back

The stored form has lengths of 64 bits, numbers of 32, and compressed tag trees. `Clipboard.Fits`
says that all lengths and numbers of a clipboard are of these widths, and `Entry.Survives` that a
tag tree comes back from its compressed form.

* One lemma for each kind of part says that its reader is exact on its bytes
  (`Decoder.Exact`): from texts and positions up to `exact_stored`.
* `Entry.Packed`: the stored form of an entry, which is written and which becomes the entry again.
* `decode?_encode?`: what is read back is the clipboard, in use.
* `stored_clipboard_round_trip`: **a coherent clipboard in use is read back as it was, and any part
  of its stored form that breaks off early is refused.**
-/

namespace VoxelEdit

open Nbt Text Decoder

/-! ## What the stored form can hold -/

/-- A text whose length is a number of 64 bits. -/
def LongText (s : String) : Prop := (utf8 s).length ≤ Number.maxWord64

instance : DecidablePred LongText := fun s => Nat.decLe (utf8 s).length Number.maxWord64

/-- A list whose length is a number of 64 bits. -/
def LongList {α : Type} (as : List α) : Prop := as.length ≤ Number.maxWord64

instance {α : Type} : DecidablePred (LongList (α := α)) := fun as =>
  Nat.decLe as.length Number.maxWord64

/-- A block with texts and a number of properties that the stored form can hold. -/
structure Block.Fits (b : Block) : Prop where
  name : LongText b.name
  count : LongList b.properties
  properties : ∀ x ∈ b.properties, LongText x.1 ∧ LongText x.2

/-- A tag tree comes back from its compressed form. -/
def Entry.Survives (e : Entry) : Prop :=
  ∀ fields, e.entity = some fields →
    ∃ blob, compress? fields = .ok blob ∧ LongList blob ∧ decompress? blob = .ok fields

namespace Clipboard

/-- All numbers and lengths of a clipboard are of the widths of the stored form: coordinates and
numbers of entries of 32 bits, and lengths of 64. -/
structure Fits (c : Clipboard) : Prop where
  size : c.size.InWorld
  player : c.player.InWorld
  relative : c.relative.InWorld
  palette : LongList c.palette.toList
  blocks : ∀ e ∈ c.palette, e.block.Fits ∧ ∀ b, e.extra = some b → b.Fits
  cells : LongList c.cells.toList
  ids : ∀ id, some id ∈ c.cells → id ≤ Number.maxWord32

/-! ## Parts -/

section Parts

variable {α : Type}

theorem exact_length {n : Nat} (h : n ≤ Number.maxWord64) :
    Exact (little 8) (littleEndian 8 n) n :=
  exact_little (Nat.lt_of_le_of_lt h (by decide))

/-- A sequence after its length. -/
theorem exact_sequence {item : Decoder α} {write : α → List UInt8} {as : List α}
    (hl : LongList as) (h : ∀ a ∈ as, Exact item (write a) a) :
    Exact (readSequence item) (sequenceBytes write as) as :=
  (exact_length hl).bind (exact_many h)

/-- An optional part. -/
theorem exact_option {item : Decoder α} {write : α → List UInt8} {a : Option α}
    (h : ∀ x, a = some x → Exact item (write x) x) :
    Exact (readOption item) (optionBytes write a) a := by
  cases a with
  | none =>
    have hnone : Exact (Pure.pure none : Decoder (Option α)) [] none := .pure none
    exact (exact_byte 0).bind hnone
  | some x =>
    have hsome := (h x rfl).map some
    exact (exact_byte 1).bind hsome

/-- Bytes after their number. -/
theorem exact_blob {bs : List UInt8} (hl : LongList bs) :
    Exact (do Decoder.bytes (← little 8)) (sequenceBytes (fun b => [b]) bs) bs := by
  have hbytes := (exact_length hl).bind (f := Decoder.bytes) (exact_bytes bs)
  unfold sequenceBytes
  rw [List.flatMap_singleton']
  exact hbytes

theorem exact_text {s : String} (h : LongText s) : Exact readText (textBytes s) s := by
  have htext := (exact_bytes (utf8 s)).check (ofUtf8?_utf8 s)
  unfold textBytes sequenceBytes
  rw [List.flatMap_singleton']
  exact (exact_length h).bind htext

theorem exact_coordinate {v : Int} (h : Narrow v) : Exact readCoordinate (coordinateBytes v) v := by
  have hlittle : Exact (little 4) (coordinateBytes v) (Int32.ofInt v).toUInt32.toNat :=
    exact_little (Int32.ofInt v).toUInt32.toNat_lt
  have hword := hlittle.map fun n => n.toUInt32.toInt32.toInt
  have hback : (Int32.ofInt v).toUInt32.toNat.toUInt32.toInt32.toInt = v := by
    rw [show (Int32.ofInt v).toUInt32.toNat.toUInt32 = (Int32.ofInt v).toUInt32 from
      UInt32.ofNat_toNat, Int32.toInt32_toUInt32]
    exact h.toInt_ofInt
  rw [hback] at hword
  exact hword

theorem exact_pos {p : Pos} (h : p.InWorld) : Exact readPos (posBytes p) p := by
  unfold posBytes
  rw [List.append_assoc]
  refine (exact_coordinate h.x).bind ((exact_coordinate h.y).bind ?_)
  exact (exact_coordinate h.z).map fun z => (⟨p.x, p.y, z⟩ : Pos)

theorem exact_block {b : Block} (h : b.Fits) : Exact readBlock (blockBytes b) b := by
  have hproperty : ∀ x ∈ b.properties, Exact (do return (← readText, ← readText))
      (textBytes x.1 ++ textBytes x.2) x := by
    intro x hx
    obtain ⟨hk, hv⟩ := h.properties x hx
    exact (exact_text hk).bind ((exact_text hv).map fun v => (x.1, v))
  have hdata : Exact (little 2) (littleEndian 2 b.data.toNat) b.data.toNat :=
    exact_little b.data.toNat_lt
  have hproperties := (exact_sequence h.count hproperty).map
    fun properties => (⟨b.name, b.data.toNat.toUInt16, properties⟩ : Block)
  have hback : b.data.toNat.toUInt16 = b.data := UInt16.ofNat_toNat
  rw [hback] at hproperties
  unfold blockBytes
  rw [List.append_assoc]
  refine (exact_text h.name).bind (hdata.bind ?_)
  rw [hback]
  exact hproperties

end Parts

/-! ## Entries -/

/-- An entry as it is stored: its blocks, and its tag tree in compressed form. -/
abbrev StoredEntry := Block × Option Block × Option (List UInt8)

/-- The bytes of a stored entry. -/
def storedEntryBytes (t : StoredEntry) : List UInt8 :=
  blockBytes t.1 ++ optionBytes blockBytes t.2.1 ++
    optionBytes (sequenceBytes fun b => [b]) t.2.2

/-- A stored entry with parts that the stored form can hold. -/
structure StoredFits (t : StoredEntry) : Prop where
  block : t.1.Fits
  extra : ∀ b, t.2.1 = some b → b.Fits
  blob : ∀ bs, t.2.2 = some bs → LongList bs

theorem exact_entry {t : StoredEntry} (h : StoredFits t) :
    Exact readEntry (storedEntryBytes t) t := by
  have hextra : Exact (readOption readBlock) (optionBytes blockBytes t.2.1) t.2.1 :=
    exact_option fun b hb => exact_block (h.extra b hb)
  have hblob : Exact (readOption do Decoder.bytes (← little 8))
      (optionBytes (sequenceBytes fun b => [b]) t.2.2) t.2.2 :=
    exact_option fun bs hbs => exact_blob (h.blob bs hbs)
  unfold storedEntryBytes
  rw [List.append_assoc]
  refine (exact_block h.block).bind (hextra.bind ?_)
  exact hblob.map fun blob => ((t.1, t.2.1, blob) : StoredEntry)

/-- The stored form of an entry: what is written, and what becomes the entry again. -/
structure Packed (e : Entry) (t : StoredEntry) : Prop where
  written : entryBytes? e = .ok (storedEntryBytes t)
  expanded : expand t = .ok e
  fits : StoredFits t

/-- An entry whose tag tree survives has a stored form. -/
theorem exists_packed {e : Entry} (hb : e.block.Fits) (hx : ∀ b, e.extra = some b → b.Fits)
    (hs : e.Survives) : ∃ t, Packed e t := by
  obtain ⟨block, extra, entity⟩ := e
  cases entity with
  | none =>
    have hfits : StoredFits (block, extra, none) := ⟨hb, hx, fun _ h => nomatch h⟩
    exact ⟨(block, extra, none), rfl, rfl, hfits⟩
  | some fields =>
    obtain ⟨blob, hcompress, hl, hdecompress⟩ := hs fields rfl
    have hfits : StoredFits (block, extra, some blob) :=
      ⟨hb, hx, fun _ h => Option.some.inj h ▸ hl⟩
    refine ⟨(block, extra, some blob), ?_, ?_, hfits⟩
    · unfold entryBytes?
      simp only [Option.mapM_some, hcompress]
      rfl
    · unfold expand
      simp only [Option.mapM_some, hdecompress]
      rfl

/-- Entries with stored forms are written as these, and become the entries again. -/
theorem exists_packed_list {es : List Entry} (h : ∀ e ∈ es, ∃ t, Packed e t) :
    ∃ ts : List StoredEntry, es.mapM entryBytes? = .ok (ts.map storedEntryBytes) ∧
      ts.mapM expand = .ok es ∧ (∀ t ∈ ts, StoredFits t) ∧ ts.length = es.length := by
  induction es with
  | nil => exact ⟨[], rfl, rfl, fun _ h => (nomatch h), rfl⟩
  | cons e es ih =>
    obtain ⟨t, ht⟩ := h e List.mem_cons_self
    obtain ⟨ts, hwritten, hexpanded, hfits, hlength⟩ :=
      ih fun f hf => h f (List.mem_cons_of_mem e hf)
    refine ⟨t :: ts, ?_, ?_, ?_, congrArg (· + 1) hlength⟩
    · rw [List.mapM_cons, ht.written, hwritten]
      rfl
    · rw [List.mapM_cons, ht.expanded, hexpanded]
      rfl
    · exact List.forall_mem_cons.2 ⟨ht.fits, hfits⟩

/-! ## Clipboards -/

/-- The bytes of what follows the version. -/
def storedBytes (s : Stored) : List UInt8 :=
  posBytes s.size ++ posBytes s.player ++ posBytes s.relative ++
    sequenceBytes storedEntryBytes s.palette ++ sequenceBytes cellBytes s.cells

theorem exact_stored {s : Stored} (hsize : s.size.InWorld) (hplayer : s.player.InWorld)
    (hrelative : s.relative.InWorld) (hpalette : LongList s.palette)
    (hentries : ∀ t ∈ s.palette, StoredFits t) (hcells : LongList s.cells)
    (hids : ∀ id, some id ∈ s.cells → id ≤ Number.maxWord32) :
    Exact readStored (storedBytes s) s := by
  have hcell : ∀ cell ∈ s.cells, Exact (readOption (little 4)) (cellBytes cell) cell := by
    intro cell hcell
    refine exact_option fun id hid => exact_little ?_
    exact Nat.lt_of_le_of_lt (hids id (hid ▸ hcell)) (by decide)
  have hlast := (exact_sequence hcells hcell).map fun cells =>
    (⟨s.size, s.player, s.relative, s.palette, cells⟩ : Stored)
  have hmiddle := exact_sequence hpalette fun t ht => exact_entry (hentries t ht)
  unfold storedBytes
  rw [List.append_assoc, List.append_assoc, List.append_assoc]
  exact (exact_pos hsize).bind ((exact_pos hplayer).bind ((exact_pos hrelative).bind
    (hmiddle.bind hlast)))

/-- Nothing is read from fewer bytes than the header has. -/
theorem decode?_short {bs : List UInt8} (h : bs.length < 8) :
    decode? bs = some (.error .tooShort) := by
  unfold decode?
  rw [if_pos h]

/-- **What is stored is read back**, in use, and no part that breaks off early is read. -/
theorem decode?_encode? {c : Clipboard} (hc : c.Coherent) (hf : c.Fits)
    (hs : ∀ e ∈ c.palette, e.Survives) :
    ∃ bs, c.encode? = .ok bs ∧ decode? bs = some (.ok { c with used := true }) ∧
      ∀ n, n < bs.length →
        decode? (bs.take n) = some (.error (if n < 8 then .tooShort else .undecodable)) := by
  have hpacked : ∀ e ∈ c.palette.toList, ∃ t, Packed e t := by
    intro e he
    have hmem := Array.mem_toList_iff.1 he
    obtain ⟨hb, hx⟩ := hf.blocks e hmem
    exact exists_packed hb hx (hs e hmem)
  obtain ⟨ts, hwritten, hexpanded, hfits, hlength⟩ := exists_packed_list hpacked
  set s : Stored := ⟨c.size, c.player, c.relative, ts, c.cells.toList⟩ with hstored
  have hlist : LongList ts := by
    unfold LongList
    rw [hlength]
    exact hf.palette
  have hexact : Exact readStored (storedBytes s) s :=
    exact_stored hf.size hf.player hf.relative hlist hfits hf.cells fun id hid =>
      hf.ids id (Array.mem_toList_iff.1 hid)
  have hencode : c.encode? = .ok (header ++ storedBytes s) := by
    unfold encode?
    rw [hwritten]
    simp only [sequenceBytes, List.flatMap_map, storedBytes, hstored, header, List.length_map,
      List.append_assoc, id_eq]
  -- the clipboard passes the checks, for it is coherent
  have hpasses : ofStored? s = some (.ok { c with used := true }) := by
    have hcount : (s.cells.length : Int) = s.size.cellCount := hc.cells
    have hwords : s.size.cellCount ≤ Number.maxWord64 := hcount ▸ Int.ofNat_le.2 hf.cells
    refine ofStored?_eq_ok_iff.2
      ⟨hc.proper, ⟨hcount, hwords⟩, ?_, c.palette.toList, hexpanded, ?_⟩
    · intro id hid
      show id < ts.length
      rw [hlength]
      exact hc.below id (Array.mem_toList_iff.1 hid)
    · unfold ofParts
      rw [← hc.index]
  refine ⟨header ++ storedBytes s, hencode, ?_, ?_⟩
  · have hread := hexact.reads []
    rw [List.append_nil] at hread
    rw [decode?_header, hread]
    exact hpasses
  · intro n hn
    by_cases hshort : n < 8
    · have hlt : ((header ++ storedBytes s).take n).length < 8 := by
        rw [List.length_take]
        omega
      rw [if_pos hshort]
      exact decode?_short hlt
    · have hheader : header.length = 8 := rfl
      have htake : (header ++ storedBytes s).take n = header ++ (storedBytes s).take (n - 8) := by
        rw [List.take_append, List.take_of_length_le (by omega), hheader]
      have hcut : n - 8 < (storedBytes s).length := by
        rw [List.length_append] at hn
        omega
      rw [if_neg hshort, htake, decode?_header, hexact.cut _ hcut]

/-- **Stored clipboards are read back.** A clipboard in use that operations lead to, with numbers
and lengths of the widths of the stored form and tag trees that survive compression, can be stored.
What is read back is that clipboard itself, its palette in order, its cells, its index, both
positions of the player and the flag, and whatever breaks off before the end is refused. -/
theorem stored_clipboard_round_trip {c : Clipboard} (hc : c.Made) (hu : c.used = true)
    (hf : c.Fits) (hs : ∀ e ∈ c.palette, e.Survives) :
    ∃ bs, c.encode? = .ok bs ∧ decode? bs = some (.ok c) ∧
      ∀ n, n < bs.length → ∃ e, decode? (bs.take n) = some (.error e) := by
  obtain ⟨bs, hencode, hdecode, hcut⟩ := decode?_encode? hc.coherent hf hs
  have hflag : { c with used := true } = c := by rw [← hu]
  rw [hflag] at hdecode
  exact ⟨bs, hencode, hdecode, fun n hn => ⟨_, hcut n hn⟩⟩

/-- A chest under water with what it holds, in a buffer of two cells that is mirrored. -/
theorem stored_clipboard_round_trip_chest :
    let chest : Entry := ⟨⟨"minecraft:chest", 0, [("facing", "east")]⟩,
      some (.ofName "minecraft:water"), some [("Items", .int 3)]⟩
    let c := ((new ⟨1, 1, 2⟩).store ⟨0, 0, 1⟩ chest).mirror .z
    c.Made ∧ c.used = true ∧ c.Fits ∧ (∀ e ∈ c.palette, e.Survives) ∧
      c.get? ⟨0, 0, 0⟩ = some chest ∧
      ∃ bs, c.encode? = .ok bs ∧ decode? bs = some (.ok c) ∧
        ∀ n, n < bs.length → ∃ e, decode? (bs.take n) = some (.error e) := by
  intro chest c
  have hc : c.Made := .mirror .z (.store _ _ (.new _))
  have hpalette : c.palette = #[chest] := by
    show (#[chest] : Array Entry).map (mapBlocks fun b => b.mirror .z) = #[chest]
    rw [List.map_toArray]
    rfl
  have hcells : c.cells = #[some 0, none] := by decide +kernel
  have hget : c.get? ⟨0, 0, 0⟩ = some chest := by
    rw [get?_eq, cell?, hcells, hpalette]
    rfl
  have hfits : c.Fits := by
    refine ⟨?_, ?_, ?_, ?_, ?_, ?_, ?_⟩
    · constructor <;> unfold Narrow <;> decide
    · constructor <;> unfold Narrow <;> decide
    · constructor <;> unfold Narrow <;> decide
    · rw [hpalette]
      decide
    · rw [hpalette]
      intro e he
      obtain rfl := List.mem_singleton.1 (Array.mem_toList_iff.2 he)
      exact ⟨⟨by decide, by decide, by decide⟩, fun b hb =>
        Option.some.inj hb ▸ ⟨by decide, by decide, by decide⟩⟩
    · rw [hcells]
      decide
    · rw [hcells]
      simp
  have hsurvives : ∀ e ∈ c.palette, e.Survives := by
    rw [hpalette]
    intro e he fields hfields
    obtain rfl := List.mem_singleton.1 (Array.mem_toList_iff.2 he)
    obtain rfl := Option.some.inj hfields
    let file : List UInt8 := [10, 0, 0, 3, 0, 5, 73, 116, 101, 109, 115, 0, 0, 0, 3, 0]
    have hunpack : Zlib.unpack? (Zlib.pack file) = some file := by decide
    refine ⟨Zlib.pack file, rfl, by decide, ?_⟩
    rw [decompress?, hunpack]
    rfl
  exact ⟨hc, rfl, hfits, hsurvives, hget, stored_clipboard_round_trip hc rfl hfits hsurvives⟩

end Clipboard

end VoxelEdit
