import VoxelEdit.Proofs.BinaryTags

/-!
# Decoders that need all of their bytes

`Decoder.Exact`: a decoder reads some bytes from the front of any input, and fails on any input
that breaks off within them. Decoders one after the other are exact on bytes one after the other
(`Exact.bind`): if the first part is cut, the first decoder fails, and if it is not, the second one
sees its own part cut. So it is enough to know this of the pieces of a format.
-/

namespace VoxelEdit.Text

namespace Decoder

variable {α β : Type} {x : Decoder α} {bs cs : List UInt8} {a : α}

/-- A decoder that takes `bs` from the front of its input and answers `a`, whatever follows, and
that fails if only a part of `bs` is there. -/
structure Exact (x : Decoder α) (bs : List UInt8) (a : α) : Prop where
  reads : Reads x bs a
  cut : ∀ n, n < bs.length → x (bs.take n) = none

theorem Exact.pure (a : α) : Exact (Pure.pure a) [] a :=
  ⟨.pure a, fun _ h => nomatch h⟩

/-- A decoder that takes no bytes and has an answer. -/
theorem Exact.answer {answer : Option α} (h : answer = some a) :
    Exact (answer : Decoder α) [] a := by
  subst h
  exact .pure a

/-- **Decoders one after the other.** -/
theorem Exact.bind {f : α → Decoder β} {b : β} (hx : Exact x bs a) (hf : Exact (f a) cs b) :
    Exact (x >>= f) (bs ++ cs) b := by
  refine ⟨hx.reads.bind hf.reads, ?_⟩
  intro n hn
  show (x ((bs ++ cs).take n)).bind (fun p => f p.1 p.2) = none
  rw [List.take_append]
  by_cases hlt : n < bs.length
  · have hrest : cs.take (n - bs.length) = [] := by
      rw [Nat.sub_eq_zero_of_le hlt.le, List.take_zero]
    rw [hrest, List.append_nil, hx.cut n hlt]
    rfl
  · have hcut : n - bs.length < cs.length := by
      rw [List.length_append] at hn
      omega
    rw [List.take_of_length_le (Nat.not_lt.1 hlt), hx.reads]
    exact hf.cut _ hcut

/-- A decoder that only changes what another one answers. -/
theorem Exact.map (hx : Exact x bs a) (f : α → β) : Exact (do return f (← x)) bs (f a) := by
  have h := hx.bind (f := fun a => Pure.pure (f a)) (Exact.pure (f a))
  rwa [List.append_nil] at h

/-- A decoder that checks what another one answers. -/
theorem Exact.check (hx : Exact x bs a) {f : α → Option β} {b : β} (h : f a = some b) :
    Exact (do (f (← x) : Option β)) bs b := by
  have hbind := hx.bind (f := fun a => (f a : Decoder β)) (Exact.answer h)
  rwa [List.append_nil] at hbind

theorem exact_byte (b : UInt8) : Exact byte [b] b := by
  refine ⟨reads_byte b, ?_⟩
  intro n hn
  rw [Nat.lt_one_iff.1 hn]
  rfl

theorem splitFront_short {n : Nat} (h : bs.length < n) (taken : List UInt8) :
    splitFront n bs taken = none := by
  induction bs generalizing n taken with
  | nil =>
    cases n with
    | zero => exact absurd h (by simp)
    | succ n => rfl
  | cons b bs ih =>
    cases n with
    | zero => exact absurd h (by simp)
    | succ n =>
      rw [splitFront]
      exact ih (Nat.lt_of_succ_lt_succ h) (b :: taken)

theorem exact_bytes (bs : List UInt8) : Exact (bytes bs.length) bs bs := by
  refine ⟨reads_bytes bs, ?_⟩
  intro n hn
  have hshort : (bs.take n).length < bs.length := by
    rw [List.length_take]
    omega
  exact splitFront_short hshort []

theorem exact_little {width n : Nat} (h : n < 256 ^ width) :
    Exact (little width) (littleEndian width n) n := by
  have hbytes := exact_bytes (littleEndian width n)
  rw [length_littleEndian] at hbytes
  have hmap := hbytes.map ofLittleEndian
  rw [ofLittleEndian_littleEndian h] at hmap
  exact hmap

/-- Values in a row. -/
theorem exact_repeatInto {item : Decoder α} {write : α → List UInt8} {as : List α}
    (h : ∀ a ∈ as, Exact item (write a) a) (taken : List α) :
    Exact (repeatInto item as.length taken) (as.flatMap write) (taken.reverse ++ as) := by
  induction as generalizing taken with
  | nil =>
    rw [List.append_nil]
    exact .pure _
  | cons a as ih =>
    have hrest := ih (fun b hb => h b (List.mem_cons_of_mem a hb)) (a :: taken)
    rw [List.reverse_cons, List.append_assoc, List.singleton_append] at hrest
    rw [List.length_cons, List.flatMap_cons, repeatInto]
    exact (h a List.mem_cons_self).bind hrest

theorem exact_many {item : Decoder α} {write : α → List UInt8} {as : List α}
    (h : ∀ a ∈ as, Exact item (write a) a) : Exact (many as.length item) (as.flatMap write) as :=
  exact_repeatInto h []

end Decoder

/-- The bytes of a text are read back. -/
theorem ofUtf8?_utf8 (s : String) : ofUtf8? (utf8 s) = some s := by
  unfold ofUtf8? utf8 String.fromUTF8?
  rw [Array.toArray_toList]
  exact dif_pos s.isValidUTF8

end VoxelEdit.Text
