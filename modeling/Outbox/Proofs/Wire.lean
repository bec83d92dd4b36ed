import Mathlib.Algebra.Order.Ring.Nat
import Outbox.Wire.Rlp

namespace Outbox

namespace BigEndian

theorem length_shortest_le {n k : Nat} (h : n < 256 ^ k) : (shortest n).length ≤ k := by
  induction k generalizing n with
  | zero =>
    have hn : n = 0 := by omega
    simp [hn, shortest]
  | succ k ih =>
    unfold shortest
    split
    · simp
    · have hdiv : n / 256 < 256 ^ k := by
        rw [pow_succ] at h
        exact Nat.div_lt_of_lt_mul (by omega)
      have hlen := ih hdiv
      simp
      omega

theorem length_shortest_pos {n : Nat} (h : n ≠ 0) : 0 < (shortest n).length := by
  unfold shortest
  simp [h]

theorem toNat_ofNat (width n : Nat) : toNat (ofNat width n) = n % 256 ^ width := by
  induction width generalizing n with
  | zero => simp [ofNat, toNat_nil, Nat.mod_one]
  | succ w ih =>
    have hbyte : (UInt8.ofNat (n % 256)).toNat = n % 256 := by simp
    rw [ofNat, toNat_append_singleton, ih, hbyte, pow_succ', Nat.mod_mul]
    omega

end BigEndian

namespace Rlp

/-- The largest length that is written behind a first byte. -/
def lengthLimit : Nat := 2 ^ 64

theorem split?_append (xs rest : Bytes) : split? xs.length (xs ++ rest) = some (xs, rest) := by
  simp [split?]

/-- What a header is, and that it reads back: the first byte keeps its kind apart from the other
kinds, and the rest of the header tells the length. -/
theorem header_cases (offset : Nat) {length : Nat} (ho : offset ≤ 192) (hl : length < lengthLimit) :
    ∃ b tail, header offset length = b :: tail ∧ offset ≤ b.toNat ∧ b.toNat < offset + 64 ∧
      tail.length ≤ 8 ∧ ∀ rest, length? offset b (tail ++ rest) = some (length, rest) := by
  unfold header
  split
  · next hshort =>
    have hb : (UInt8.ofNat (offset + length)).toNat = offset + length := by
      rw [UInt8.toNat_ofNat']
      omega
    refine ⟨_, [], rfl, by omega, by omega, by simp, fun rest => ?_⟩
    simp only [length?, hb, List.nil_append]
    rw [if_pos (by omega), Nat.add_sub_cancel_left]
  · next hlong =>
    have hpos : 0 < (BigEndian.shortest length).length :=
      BigEndian.length_shortest_pos (by omega)
    have hle : (BigEndian.shortest length).length ≤ 8 :=
      BigEndian.length_shortest_le (lt_of_lt_of_eq hl (by decide))
    have hb : (UInt8.ofNat (offset + 55 + (BigEndian.shortest length).length)).toNat =
        offset + 55 + (BigEndian.shortest length).length := by
      rw [UInt8.toNat_ofNat']
      omega
    refine ⟨_, BigEndian.shortest length, rfl, by omega, by omega, hle, fun rest => ?_⟩
    have hk : offset + 55 + (BigEndian.shortest length).length - offset - 55 =
        (BigEndian.shortest length).length := by omega
    simp only [length?, hb]
    rw [if_neg (by omega), hk, split?_append, Option.map_some, BigEndian.toNat_shortest]

theorem length_header_pos (offset length : Nat) : 0 < (header offset length).length := by
  unfold header
  split <;> simp

theorem length_header_le (offset : Nat) {length : Nat} (ho : offset ≤ 192)
    (hl : length < lengthLimit) : (header offset length).length ≤ 9 := by
  obtain ⟨b, tail, hheader, -, -, htail, -⟩ := header_cases offset ho hl
  rw [hheader, List.length_cons]
  omega

theorem encodeBytes_cases (bs : Bytes) :
    (∃ b, bs = [b] ∧ b < 128 ∧ encodeBytes bs = [b]) ∨
      encodeBytes bs = header 128 bs.length ++ bs := by
  unfold encodeBytes
  split
  · next b =>
    split
    · next hb => exact .inl ⟨b, rfl, hb, rfl⟩
    · exact .inr rfl
  · exact .inr rfl

theorem length_le_encodeBytes (bs : Bytes) : bs.length ≤ (encodeBytes bs).length := by
  rcases encodeBytes_cases bs with ⟨b, rfl, -, henc⟩ | henc
  · simp [henc]
  · rw [henc, List.length_append]
    omega

theorem length_encodeBytes_le {bs : Bytes} (hl : bs.length < lengthLimit) :
    (encodeBytes bs).length ≤ bs.length + 9 := by
  rcases encodeBytes_cases bs with ⟨b, rfl, -, henc⟩ | henc
  · simp [henc]
  · have hheader := length_header_le 128 (by omega) hl
    rw [henc, List.length_append]
    omega

/-- A byte string reads back from the front of any bytes. -/
theorem decode?_encodeBytes {bs : Bytes} (hl : bs.length < lengthLimit) (fuel : Nat)
    (rest : Bytes) : decode? (fuel + 1) (encodeBytes bs ++ rest) = some (bytes bs, rest) := by
  rcases encodeBytes_cases bs with ⟨b, rfl, hb, henc⟩ | henc
  · rw [henc]
    simp [decode?, hb]
  · obtain ⟨b, tail, hheader, hlow, hhigh, -, hread⟩ := header_cases 128 (by omega) hl
    have hnot : ¬b < 128 := by
      rw [UInt8.lt_iff_toNat_lt]
      exact Nat.not_lt.mpr hlow
    have hkind : b < 192 := UInt8.lt_iff_toNat_lt.mpr hhigh
    rw [henc, hheader, List.append_assoc, List.cons_append, decode?, if_neg hnot, if_pos hkind,
      hread]
    simp [split?_append]

/-- A list begins like no byte string. -/
theorem encode_list_head {items : List Rlp} (hl : (encodeAll items).length < lengthLimit) :
    ∃ b rest, encode (list items) = b :: rest ∧ 192 ≤ b.toNat := by
  obtain ⟨b, tail, hheader, hlow, -⟩ := header_cases 192 (by omega) hl
  exact ⟨b, tail ++ encodeAll items, by rw [encode, hheader, List.cons_append], hlow⟩

/-- A list reads back as far as its items do. -/
theorem decode?_list {items : List Rlp} {fuel : Nat} (hl : (encodeAll items).length < lengthLimit)
    (hitems : decodeAll? fuel (encodeAll items) = some items) (rest : Bytes) :
    decode? (fuel + 1) (encode (list items) ++ rest) = some (list items, rest) := by
  obtain ⟨b, tail, hheader, hlow, -, -, hread⟩ := header_cases 192 (by omega) hl
  have hnot : ¬b < 128 := by
    rw [UInt8.lt_iff_toNat_lt]
    exact Nat.not_lt.mpr (le_trans (by decide) hlow)
  have hkind : ¬b < 192 := by
    rw [UInt8.lt_iff_toNat_lt]
    exact Nat.not_lt.mpr hlow
  rw [encode, hheader, List.append_assoc, List.cons_append, decode?, if_neg hnot, if_neg hkind,
    hread]
  simp [split?_append, hitems]

mutual

/-- How much fuel reading an item takes. -/
def need : Rlp → Nat
  | bytes _ => 1
  | list items => needAll items + 1

def needAll : List Rlp → Nat
  | [] => 0
  | item :: rest => max (need item) (needAll rest) + 1

end

theorem length_encode_pos (item : Rlp) : 0 < (encode item).length := by
  cases item with
  | bytes bs =>
    rw [encode]
    rcases encodeBytes_cases bs with ⟨b, -, -, henc⟩ | henc
    · simp [henc]
    · have hheader := length_header_pos 128 bs.length
      rw [henc, List.length_append]
      omega
  | list items =>
    have hheader := length_header_pos 192 (encodeAll items).length
    rw [encode, List.length_append]
    omega

theorem length_le_encode_list (items : List Rlp) :
    (encodeAll items).length ≤ (encode (list items)).length := by
  rw [encode, List.length_append]
  omega

/-- Reading a list takes its items one by one. -/
theorem decodeAll?_step {fuel : Nat} {item : Rlp} {items : List Rlp} {rest : Bytes}
    (hitem : decode? fuel (encode item ++ rest) = some (item, rest))
    (hitems : decodeAll? fuel rest = some items) :
    decodeAll? (fuel + 1) (encode item ++ rest) = some (item :: items) := by
  have hpos := length_encode_pos item
  cases hbs : encode item ++ rest with
  | nil => simp [List.append_eq_nil_iff.mp hbs] at hpos
  | cons b bs =>
    rw [hbs] at hitem
    simp [decodeAll?, hitem, hitems]

mutual

theorem decode?_encode (item : Rlp) (rest : Bytes) (fuel : Nat) (hf : need item ≤ fuel)
    (hl : (encode item).length < lengthLimit) :
    decode? fuel (encode item ++ rest) = some (item, rest) := by
  match item, fuel with
  | bytes bs, 0 => simp [need] at hf
  | bytes bs, fuel + 1 =>
    rw [encode] at hl ⊢
    exact decode?_encodeBytes (lt_of_le_of_lt (length_le_encodeBytes bs) hl) fuel rest
  | list items, 0 => simp [need] at hf
  | list items, fuel + 1 =>
    have hbody := lt_of_le_of_lt (length_le_encode_list items) hl
    have hneed : needAll items ≤ fuel := by simpa [need] using hf
    exact decode?_list hbody (decodeAll?_encodeAll items fuel hneed hbody) rest

theorem decodeAll?_encodeAll (items : List Rlp) (fuel : Nat) (hf : needAll items ≤ fuel)
    (hl : (encodeAll items).length < lengthLimit) :
    decodeAll? fuel (encodeAll items) = some items := by
  match items, fuel with
  | [], _ => simp [encodeAll, decodeAll?]
  | item :: items, 0 => simp [needAll] at hf
  | item :: items, fuel + 1 =>
    simp only [needAll] at hf
    simp only [encodeAll, List.length_append] at hl ⊢
    exact decodeAll?_step
      (decode?_encode item (encodeAll items) fuel (by omega) (by omega))
      (decodeAll?_encodeAll items fuel (by omega) (by omega))

end

theorem length_le_encodeAll (items : List Rlp) : items.length ≤ (encodeAll items).length := by
  induction items with
  | nil => simp
  | cons item items ih =>
    have hpos := length_encode_pos item
    rw [encodeAll, List.length_append, List.length_cons]
    omega

/-- A list whose items are not nested further reads back with as much fuel as it has bytes. -/
theorem decode?_flat {items : List Rlp} (hflat : needAll items ≤ items.length + 1)
    (hl : (encodeAll items).length + 9 < lengthLimit) :
    decode? ((encode (list items)).length + 1) (encode (list items)) = some (list items, []) := by
  have hcount := length_le_encodeAll items
  have hheader := length_header_pos 192 (encodeAll items).length
  have hbody : (encodeAll items).length < lengthLimit := by omega
  have hshort := length_header_le 192 (by omega) hbody
  have hlen : (encode (list items)).length =
      (header 192 (encodeAll items).length).length + (encodeAll items).length := by
    rw [encode, List.length_append]
  have hread := decode?_encode (list items) [] ((encode (list items)).length + 1)
    (by rw [need]; omega) (by omega)
  rwa [List.append_nil] at hread

end Rlp

end Outbox
