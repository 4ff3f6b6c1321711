import Mathlib.Tactic.Ring
import Mathlib.Tactic.Set
import VoxelEdit.Nbt.Binary
import VoxelEdit.Proofs.CompoundFields
import VoxelEdit.Proofs.PairedText

/-!
# Binary tags are read back

* `Decoder.Reads`: a decoder that takes some bytes from the front of any input and answers with
  one value. Decoders one after the other read bytes one after the other (`Reads.bind`).
* `Tag.Fits`: the tag trees that the binary form can hold: text and arrays are not too long, the
  items of a list are of one kind, and the fields of a compound are sorted by name.
* `Tag.Fits.reads`: **the bytes of a tree that fits are read back as that tree**, and
  `ofFile?_file?` the same for files.
-/

namespace VoxelEdit

/-! ## Decoders -/

namespace Text

namespace Decoder

variable {α β : Type} {bs cs : List UInt8}

/-- A decoder that takes `bs` from the front of its input and answers `a`, whatever follows. -/
def Reads (x : Decoder α) (bs : List UInt8) (a : α) : Prop :=
  ∀ rest, x (bs ++ rest) = some (a, rest)

theorem Reads.pure (a : α) : Reads (Pure.pure a) [] a := fun _ => rfl

/-- Decoders one after the other. -/
theorem Reads.bind {x : Decoder α} {f : α → Decoder β} {a : α} {b : β} (hx : Reads x bs a)
    (hf : Reads (f a) cs b) : Reads (x >>= f) (bs ++ cs) b := by
  intro rest
  rw [List.append_assoc]
  show (x (bs ++ (cs ++ rest))).bind (fun p => f p.1 p.2) = _
  rw [hx]
  exact hf rest

/-- A decoder that only changes what another one answers. -/
theorem Reads.map {x : Decoder α} {a : α} (hx : Reads x bs a) (f : α → β) :
    Reads (do return f (← x)) bs (f a) := by
  have h := hx.bind (f := fun a => Pure.pure (f a)) (Reads.pure (f a))
  rwa [List.append_nil] at h

theorem reads_byte (b : UInt8) : Reads byte [b] b := fun _ => rfl

theorem splitFront_append (rest taken : List UInt8) :
    splitFront bs.length (bs ++ rest) taken = some (taken.reverse ++ bs, rest) := by
  induction bs generalizing taken with
  | nil => rw [List.append_nil]; rfl
  | cons b bs ih =>
    rw [List.length_cons, List.cons_append, splitFront, ih, List.reverse_cons, List.append_assoc,
      List.singleton_append]

theorem reads_bytes (bs : List UInt8) : Reads (bytes bs.length) bs bs := fun rest =>
  splitFront_append rest []

end Decoder

theorem length_littleEndian (width n : Nat) : (littleEndian width n).length = width := by
  induction width generalizing n with
  | zero => rfl
  | succ w ih => rw [littleEndian, List.length_cons, ih]

@[simp] theorem length_bigEndian (width n : Nat) : (bigEndian width n).length = width := by
  rw [bigEndian, List.length_reverse, length_littleEndian]

theorem ofLittleEndian_littleEndian {width n : Nat} (h : n < 256 ^ width) :
    ofLittleEndian (littleEndian width n) = n := by
  induction width generalizing n with
  | zero =>
    rw [Nat.pow_zero] at h
    rw [littleEndian, ofLittleEndian]
    omega
  | succ w ih =>
    rw [Nat.pow_succ] at h
    have hlow : (UInt8.ofNat (n % 256)).toNat = n % 256 := toNat_ofNat_of_lt (by omega)
    rw [littleEndian, ofLittleEndian, ih (by omega), hlow]
    omega

/-- Bytes are the digits of their number. -/
theorem littleEndian_ofLittleEndian (bs : List UInt8) :
    littleEndian bs.length (ofLittleEndian bs) = bs := by
  induction bs with
  | nil => rfl
  | cons b bs ih =>
    have hlt := b.toNat_lt
    have hlow : (b.toNat + 256 * ofLittleEndian bs) % 256 = b.toNat := by omega
    have hhigh : (b.toNat + 256 * ofLittleEndian bs) / 256 = ofLittleEndian bs := by omega
    rw [List.length_cons, ofLittleEndian, littleEndian, hlow, hhigh, ih, UInt8.ofNat_toNat]

namespace Decoder

theorem reads_big {width n : Nat} (h : n < 256 ^ width) :
    Reads (big width) (bigEndian width n) n := by
  have hbytes := reads_bytes (bigEndian width n)
  rw [length_bigEndian] at hbytes
  have hmap := hbytes.map fun bs => ofLittleEndian bs.reverse
  rw [bigEndian, List.reverse_reverse, ofLittleEndian_littleEndian h] at hmap
  exact hmap

variable {α : Type}

/-- Values in a row. -/
theorem reads_repeatInto {item : Decoder α} {write : α → List UInt8} {as : List α}
    (h : ∀ a ∈ as, Reads item (write a) a) (taken : List α) :
    Reads (repeatInto item as.length taken) (as.flatMap write) (taken.reverse ++ as) := by
  induction as generalizing taken with
  | nil =>
    rw [List.append_nil]
    exact .pure _
  | cons a as ih =>
    have hrest := ih (fun b hb => h b (List.mem_cons_of_mem a hb)) (a :: taken)
    rw [List.reverse_cons, List.append_assoc, List.singleton_append] at hrest
    rw [List.length_cons, List.flatMap_cons, repeatInto]
    exact (h a List.mem_cons_self).bind hrest

theorem reads_many {item : Decoder α} {write : α → List UInt8} {as : List α}
    (h : ∀ a ∈ as, Reads item (write a) a) : Reads (many as.length item) (as.flatMap write) as :=
  reads_repeatInto h []

end Decoder

end Text

namespace Nbt

open Text Decoder

/-! ## Trees that fit -/

/-- Text that its length field can announce. -/
def ShortText (s : String) : Prop := (paired s).length ≤ Number.maxWord16

instance : DecidablePred ShortText := fun s => Nat.decLe (paired s).length Number.maxWord16

/-- A length that four bytes can announce. -/
def ShortList {α : Type} (as : List α) : Prop := as.length ≤ Number.maxInt32.toNat

mutual

/-- The trees that the binary form can hold. -/
def Tag.Fits : Tag → Prop
  | .bytes vs => ShortList vs
  | .string s => ShortText s
  | .list items => ShortList items ∧ (∀ a ∈ items, ∀ b ∈ items, a.id = b.id) ∧ ItemsFit items
  | .compound fields => Fields.Sorted fields ∧ FieldsFit fields
  | .ints vs => ShortList vs
  | .longs vs => ShortList vs
  | _ => True

/-- Items that fit. -/
def ItemsFit : List Tag → Prop
  | [] => True
  | item :: items => item.Fits ∧ ItemsFit items

/-- Fields whose names and tags fit. -/
def FieldsFit : List (String × Tag) → Prop
  | [] => True
  | (name, tag) :: fields => ShortText name ∧ tag.Fits ∧ FieldsFit fields

end

theorem fieldsFit_iff {fields : List (String × Tag)} :
    FieldsFit fields ↔ ∀ x ∈ fields, ShortText x.1 ∧ x.2.Fits := by
  induction fields with
  | nil => exact ⟨fun _ _ hx => (nomatch hx), fun _ => trivial⟩
  | cons x fields ih => rw [FieldsFit, ih, List.forall_mem_cons, and_assoc]

/-- A compound of fields that fit. -/
theorem fits_ofList {l : List (String × Tag)} (h : ∀ x ∈ l, ShortText x.1 ∧ x.2.Fits) :
    (Tag.compound (Fields.ofList l)).Fits :=
  ⟨Fields.sorted_ofList l, fieldsFit_iff.2 fun x hx => h x (Fields.mem_ofList hx)⟩

/-! ## Pieces -/

theorem id_range (t : Tag) : 1 ≤ t.id ∧ t.id ≤ 12 := by
  cases t <;> simp [Tag.id]

theorem reads_length {n : Nat} (h : n ≤ Number.maxInt32.toNat) :
    Reads length? (bigEndian 4 n) n := by
  have hlt : n < 256 ^ 4 := Nat.lt_of_le_of_lt h (by decide)
  rw [← List.append_nil (bigEndian 4 n)]
  refine (reads_big hlt).bind ?_
  rw [if_pos h]
  exact .pure n

theorem reads_string {s : String} (h : ShortText s) : Reads string? (stringBytes s) s := by
  have hlt : (paired s).length < 256 ^ 2 := Nat.lt_succ_of_le h
  have hlift : Reads ((ofPaired? (paired s) : Option String) : Decoder String) [] s := by
    intro rest
    rw [ofPaired?_paired]
    rfl
  have hbytes := (reads_bytes (paired s)).bind
    (f := fun bs => ((ofPaired? bs : Option String) : Decoder String)) hlift
  rw [List.append_nil] at hbytes
  exact (reads_big hlt).bind hbytes

/-- Numbers after their count. -/
theorem reads_array {α β : Type} {width : Nat} {as : List α} (write : α → Nat) (read : Nat → α)
    (f : List α → β) (hl : ShortList as) (hlt : ∀ a, write a < 256 ^ width)
    (hread : ∀ a, read (write a) = a) :
    Reads (do return f (← Decoder.many (← length?) do return read (← big width)))
      (arrayBytes width (as.map write)) (f as) := by
  unfold arrayBytes
  rw [List.length_map, List.flatMap_map]
  refine (reads_length hl).bind ((reads_many fun a _ => ?_).map f)
  have := (reads_big (hlt a)).map read
  rwa [hread] at this

theorem length_stringBytes_pos (s : String) : 0 < (stringBytes s).length := by
  simp only [stringBytes, List.length_append, length_bigEndian]
  omega

theorem length_arrayBytes_pos (width : Nat) (ns : List Nat) :
    0 < (arrayBytes width ns).length := by
  simp only [arrayBytes, List.length_append, length_bigEndian]
  omega

/-- The byte that announces a kind. -/
theorem toNat_id (t : Tag) : (UInt8.ofNat t.id).toNat = t.id :=
  toNat_ofNat_of_lt (by have := id_range t; omega)

theorem id_ne_zero (t : Tag) : UInt8.ofNat t.id ≠ 0 := by
  intro h
  have hid := toNat_id t
  have hrange := id_range t
  rw [h, UInt8.toNat_zero] at hid
  omega

/-- A number of one byte. -/
theorem bigEndian_one {n : Nat} (h : n < 256) : bigEndian 1 n = [UInt8.ofNat n] := by
  rw [bigEndian, littleEndian, littleEndian, Nat.mod_eq_of_lt h]
  rfl

/-- A kind is announced by one byte. -/
theorem reads_id (t : Tag) : Reads byte (bigEndian 1 t.id) (UInt8.ofNat t.id) := by
  rw [bigEndian_one (by have := id_range t; omega)]
  exact reads_byte _

/-- The depth does not matter to what holds no other tags. -/
theorem reads_leaf {t : Tag} {bs : List UInt8} (hpos : 0 < bs.length)
    (h : ∀ depth, Reads (tag? (depth + 1) t.id) bs t) (depth : Nat) (hd : bs.length ≤ depth) :
    Reads (tag? depth t.id) bs t := by
  obtain ⟨d, rfl⟩ : ∃ d, depth = d + 1 := ⟨depth - 1, by omega⟩
  exact h d

theorem reads_number {width n : Nat} {t : Tag} (read : Nat → Tag) (hw : 0 < width)
    (hlt : n < 256 ^ width) (hread : read n = t)
    (h : ∀ depth, tag? (depth + 1) t.id = do return read (← big width)) (depth : Nat)
    (hd : (bigEndian width n).length ≤ depth) : Reads (tag? depth t.id) (bigEndian width n) t := by
  refine reads_leaf (by rwa [length_bigEndian]) (fun d => ?_) depth hd
  rw [h, ← hread]
  exact (reads_big hlt).map read

/-! ## Trees -/

mutual

/-- **The bytes of a tree that fits are read back as that tree.** -/
theorem Tag.Fits.reads : {t : Tag} → t.Fits → ∃ bs, payload? t = some bs ∧ 0 < bs.length ∧
    ∀ depth, bs.length ≤ depth → Reads (tag? depth t.id) bs t
  | .byte v, _ => by
    refine ⟨_, rfl, by simp, reads_leaf (by simp) fun depth => ?_⟩
    rw [bigEndian_one v.toUInt8.toNat_lt, UInt8.ofNat_toNat]
    exact (reads_byte v.toUInt8).map fun b => Tag.byte b.toInt8
  | .short v, _ => ⟨_, rfl, by simp, reads_number (fun n => .short n.toUInt16.toInt16)
      (by decide) v.toUInt16.toNat_lt (by simp) fun _ => rfl⟩
  | .int v, _ => ⟨_, rfl, by simp, reads_number (fun n => .int n.toUInt32.toInt32)
      (by decide) v.toUInt32.toNat_lt (by simp) fun _ => rfl⟩
  | .long v, _ => ⟨_, rfl, by simp, reads_number (fun n => .long n.toUInt64.toInt64)
      (by decide) v.toUInt64.toNat_lt (by simp) fun _ => rfl⟩
  | .float v, _ => ⟨_, rfl, by simp, reads_number (fun n => .float n.toUInt32)
      (by decide) v.toNat_lt (by simp) fun _ => rfl⟩
  | .double v, _ => ⟨_, rfl, by simp, reads_number (fun n => .double n.toUInt64)
      (by decide) v.toNat_lt (by simp) fun _ => rfl⟩
  | .bytes vs, h => by
    refine ⟨_, rfl, length_arrayBytes_pos _ _,
      reads_leaf (length_arrayBytes_pos _ _) fun depth => ?_⟩
    have hbytes : (vs.map (·.toUInt8.toNat)).flatMap (bigEndian 1) = vs.map (·.toUInt8) := by
      rw [List.flatMap_map, List.map_eq_flatMap]
      congr 1
      funext v
      rw [bigEndian_one v.toUInt8.toNat_lt, UInt8.ofNat_toNat]
    have hlen : (vs.map (·.toUInt8)).length = vs.length := List.length_map _
    have hvs : (vs.map (·.toUInt8)).map UInt8.toInt8 = vs := by
      rw [List.map_map]
      exact List.map_id'' (fun v => v.toInt8_toUInt8) vs
    have hread := (reads_bytes (vs.map (·.toUInt8))).map fun bs => Tag.bytes (bs.map UInt8.toInt8)
    rw [hvs, hlen] at hread
    rw [arrayBytes, hbytes, List.length_map]
    exact (reads_length h).bind hread
  | .string s, h => ⟨_, rfl, length_stringBytes_pos s,
      reads_leaf (length_stringBytes_pos s) fun _ => (reads_string h).map Tag.string⟩
  | .list [], _ => by
    refine ⟨_, rfl, by simp, reads_leaf (by simp) fun depth => ?_⟩
    exact (reads_byte 0).bind ((reads_length (n := 0) (by decide)).bind (.pure _))
  | .list (item :: items), ⟨hl, hid, hitems⟩ => by
    obtain ⟨bs, hbs, hread⟩ := hitems.reads fun a ha => hid a ha item List.mem_cons_self
    refine ⟨bigEndian 1 item.id ++ bigEndian 4 (items.length + 1) ++ bs, ?_, ?_, ?_⟩
    · rw [payload?, hbs]
      rfl
    · simp only [List.length_append, length_bigEndian]
      omega
    intro depth hd
    simp only [List.length_append, length_bigEndian] at hd
    obtain ⟨d, rfl⟩ : ∃ d, depth = d + 1 := ⟨depth - 1, by omega⟩
    -- the reader takes the kind of the items, for it is one of the twelve
    have hkind : ¬(UInt8.ofNat item.id > 12 ||
        (UInt8.ofNat item.id = 0 && (item :: items).length ≠ 0)) := by
      have hle : ¬UInt8.ofNat item.id > 12 := by
        rw [gt_iff_lt, UInt8.lt_iff_toNat_lt, toNat_id]
        exact Nat.not_lt.2 (id_range item).2
      simp [hle, id_ne_zero item]
    rw [List.append_assoc]
    refine (reads_id item).bind ((reads_length hl).bind ?_)
    rw [if_neg hkind, toNat_id]
    exact (hread d (by omega) []).map Tag.list
  | .compound fields, ⟨hs, hfields⟩ => by
    -- there are fewer fields than bytes, so the reader does not run out
    obtain ⟨bs, hbs, hlen, hread⟩ := hfields.reads hs
    refine ⟨bs, hbs, by omega, fun depth hd => ?_⟩
    obtain ⟨d, rfl⟩ : ∃ d, depth = d + 1 := ⟨depth - 1, by omega⟩
    exact (hread d hd (d + 1) (by omega) [] fun x hx => nomatch hx).map Tag.compound
  | .ints vs, h => ⟨_, rfl, length_arrayBytes_pos _ _,
      reads_leaf (length_arrayBytes_pos _ _) fun _ => reads_array
        (fun v : Int32 => v.toUInt32.toNat) (fun n => n.toUInt32.toInt32)
        Tag.ints h (fun v => v.toUInt32.toNat_lt) (by simp)⟩
  | .longs vs, h => ⟨_, rfl, length_arrayBytes_pos _ _,
      reads_leaf (length_arrayBytes_pos _ _) fun _ => reads_array
        (fun v : Int64 => v.toUInt64.toNat) (fun n => n.toUInt64.toInt64)
        Tag.longs h (fun v => v.toUInt64.toNat_lt) (by simp)⟩

/-- Items one after another. -/
theorem ItemsFit.reads {id : Nat} : {items : List Tag} → ItemsFit items →
    (∀ a ∈ items, a.id = id) → ∃ bs, itemsBytes? id items = some bs ∧
      ∀ depth, bs.length ≤ depth → ∀ taken,
        Reads (repeatInto (tag? depth id) items.length taken) bs (taken.reverse ++ items)
  | [], _, _ => by
    refine ⟨[], rfl, fun depth _ taken => ?_⟩
    rw [List.append_nil]
    exact .pure _
  | item :: items, ⟨hitem, hitems⟩, hid => by
    obtain ⟨bs, hbs, -, hread⟩ := hitem.reads
    obtain ⟨cs, hcs, hrest⟩ := hitems.reads fun a ha => hid a (List.mem_cons_of_mem item ha)
    have hi := hid item List.mem_cons_self
    refine ⟨bs ++ cs, by rw [itemsBytes?, if_pos hi, hbs, hcs]; rfl, fun depth hd taken => ?_⟩
    rw [List.length_append] at hd
    have htail := hrest depth (by omega) (item :: taken)
    rw [List.reverse_cons, List.append_assoc, List.singleton_append] at htail
    rw [List.length_cons, repeatInto]
    exact (hi ▸ hread depth (by omega)).bind htail

/-- Fields one after another, onto fields whose names come before theirs. -/
theorem FieldsFit.reads : {fields : List (String × Tag)} → FieldsFit fields →
    Fields.Sorted fields → ∃ bs, fieldsBytes? fields = some bs ∧ fields.length < bs.length ∧
      ∀ depth, bs.length ≤ depth + 1 → ∀ limit, fields.length < limit →
        ∀ before : Fields, (∀ x ∈ before, ∀ y ∈ fields, x.1 < y.1) →
          Reads (fields? (tag? depth) limit before) bs (before ++ fields)
  | [], _, _ => by
    refine ⟨_, rfl, by simp, fun depth _ limit hl before _ => ?_⟩
    obtain ⟨l, rfl⟩ : ∃ l, limit = l + 1 := ⟨limit - 1, by omega⟩
    rw [fields?, List.append_nil]
    exact (reads_byte 0).bind (.pure _)
  | (name, tag) :: fields, ⟨hname, htag, hfields⟩, hs => by
    obtain ⟨hfirst, hs⟩ := List.pairwise_cons.1 hs
    obtain ⟨bs, hbs, -, hread⟩ := htag.reads
    obtain ⟨cs, hcs, hlen, hrest⟩ := hfields.reads hs
    refine ⟨bigEndian 1 tag.id ++ stringBytes name ++ bs ++ cs, by rw [fieldsBytes?, hbs, hcs]; rfl,
      by simp; omega, fun depth hd limit hl before hb => ?_⟩
    obtain ⟨l, rfl⟩ : ∃ l, limit = l + 1 := ⟨limit - 1, by omega⟩
    have hpos := length_stringBytes_pos name
    simp only [List.length_append, length_bigEndian, List.length_cons] at hd hl
    -- the new name goes to the end of what was read
    have hset : before.set name tag = before ++ [(name, tag)] :=
      Fields.set_eq_append fun x hx => hb x hx _ List.mem_cons_self
    have htail := hrest depth (by omega) l (by omega) (before ++ [(name, tag)]) (by
      intro x hx y hy
      rcases List.mem_append.1 hx with hx | hx
      · exact hb x hx y (List.mem_cons_of_mem _ hy)
      · rw [List.mem_singleton.1 hx]
        exact hfirst y hy)
    rw [List.append_assoc, List.singleton_append, ← hset] at htail
    rw [fields?, List.append_assoc, List.append_assoc]
    refine (reads_id tag).bind ?_
    rw [if_neg (id_ne_zero tag), toNat_id]
    exact (reads_string hname).bind ((hread depth (by omega)).bind htail)

end

/-- **A file is read back**, if its fields fit. -/
theorem ofFile?_file? {root : String} {fields : Fields} (hroot : ShortText root)
    (hs : Fields.Sorted fields) (hf : FieldsFit fields) :
    ∃ bs, file? root fields = some bs ∧ ofFile? bs = some (root, fields) := by
  obtain ⟨bs, hbs, hlen, hread⟩ := hf.reads hs
  refine ⟨bigEndian 1 10 ++ stringBytes root ++ bs, ?_, ?_⟩
  · rw [file?, payload?, hbs]
    rfl
  set file := bigEndian 1 10 ++ stringBytes root ++ bs with hfile
  have hsize : bs.length ≤ file.length := by
    rw [hfile, List.length_append]
    omega
  have hfields := hread file.length (by omega) (file.length + 1) (by omega) []
    fun x hx => nomatch hx
  have hall : Reads (do
      if (← Decoder.byte) ≠ 10 then failure
      let root ← string?
      let fields ← fields? (tag? file.length) (file.length + 1) []
      return (root, fields)) file (root, fields) := by
    rw [hfile, List.append_assoc]
    refine (reads_byte 10).bind ?_
    exact (reads_string hroot).bind (hfields.map fun fields => (root, fields))
  have h := hall []
  rw [List.append_nil] at h
  exact congrArg (Option.bind · fun x => some (x.1.1, x.1.2)) h

end Nbt

end VoxelEdit
