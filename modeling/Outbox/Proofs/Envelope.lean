import Outbox.Proofs.Wire
import Outbox.Signer

namespace Outbox

/-- Prices are numbers of 256 bits. -/
def Price.InRange : Price → Prop
  | legacy p => p < 2 ^ 256
  | dynamic maxFee tip => maxFee < 2 ^ 256 ∧ tip < 2 ^ 256

/-- Every field as wide as its type: numbers of transactions and chain ids have 64 bits, with room
for the chain id in the mark of a legacy signature, amounts have 256, and no byte string in memory
is as long as 2^63. -/
structure Transaction.InRange (tx : Transaction) : Prop where
  chainId : 2 * tx.chainId + 36 < 2 ^ 64
  nonce : tx.nonce < 2 ^ 64
  gasLimit : tx.gasLimit < 2 ^ 256
  price : tx.price.InRange
  value : tx.value < 2 ^ 256
  data : tx.data.length < 2 ^ 63

/-- Two numbers of 256 bits and one of four points. A legacy transaction has room for the parity of
the point and for nothing else. -/
structure Signature.Standard (sig : Signature) (tx : Transaction) : Prop where
  recovery : sig.recovery < 4
  parity : ∀ p, tx.price = .legacy p → sig.recovery ≤ 1
  r : sig.r < 2 ^ 256
  s : sig.s < 2 ^ 256

theorem Address.length_bytes (a : Address) : a.bytes.length = 20 := BigEndian.length_ofNat 20 _

theorem Address.ofBytes_bytes (a : Address) : Address.ofBytes a.bytes = a := by
  have hlt : a.bits.toNat < 256 ^ 20 := lt_of_lt_of_eq a.bits.isLt (by decide)
  rw [Address.ofBytes, Address.bytes, BigEndian.toNat_ofNat, Nat.mod_eq_of_lt hlt]
  simp

namespace Envelope

open Rlp (encode encodeAll need needAll lengthLimit)

theorem recipient_cases (a : Option Address) :
    ∃ bs, recipient a = .bytes bs ∧ bs.length ≤ 20 ∧ recipient? bs = some a := by
  cases a with
  | none => exact ⟨[], rfl, by simp, rfl⟩
  | some a =>
    refine ⟨a.bytes, rfl, a.length_bytes.le, ?_⟩
    have hlen := a.length_bytes
    unfold recipient?
    split
    · next h => simp [h] at hlen
    · rw [if_pos hlen, a.ofBytes_bytes]

/-- A number of 256 bits takes at most thirty-two bytes and a header. -/
theorem length_number_le {n : Nat} (h : n < 2 ^ 256) : (encode (.ofNat n)).length ≤ 41 := by
  have hlen : (BigEndian.shortest n).length ≤ 32 :=
    BigEndian.length_shortest_le (lt_of_lt_of_eq h (by decide))
  have henc := Rlp.length_encodeBytes_le (lt_of_le_of_lt hlen (by decide))
  rw [Rlp.ofNat, encode]
  omega

theorem length_bytes_le {bs : Bytes} (h : bs.length < 2 ^ 63) :
    (encode (.bytes bs)).length ≤ bs.length + 9 := by
  rw [encode]
  exact Rlp.length_encodeBytes_le (lt_trans h (by decide))

/-- The fields that both formats share are short enough to be read back. -/
theorem length_body_le {tx : Transaction} (h : tx.InRange) :
    (encodeAll (body tx)).length ≤ tx.data.length + 120 := by
  obtain ⟨bs, hpayee, hlen, -⟩ := recipient_cases tx.recipient
  have hgas := length_number_le h.gasLimit
  have hvalue := length_number_le h.value
  have hdata := length_bytes_le h.data
  have hshort : bs.length < 2 ^ 63 := by omega
  have hbs := length_bytes_le hshort
  rw [body, hpayee]
  simp only [encodeAll, List.length_append, List.length_nil]
  omega

theorem encodeAll_append (xs ys : List Rlp) :
    encodeAll (xs ++ ys) = encodeAll xs ++ encodeAll ys := by
  induction xs with
  | nil => rfl
  | cons x xs ih => rw [List.cons_append, encodeAll, encodeAll, ih, List.append_assoc]

variable {tx : Transaction} {sig : Signature}

def legacyItems (tx : Transaction) (p : Nat) (sig : Signature) : List Rlp :=
  [.ofNat tx.nonce, .ofNat p] ++ body tx ++
    [.ofNat (legacyMark tx.chainId sig.recovery), .ofNat sig.r, .ofNat sig.s]

def dynamicItems (tx : Transaction) (maxFee tip : Nat) (sig : Signature) : List Rlp :=
  dynamicFields tx maxFee tip ++ [.ofNat sig.recovery, .ofNat sig.r, .ofNat sig.s]

theorem signed_legacy {p : Nat} (hp : tx.price = .legacy p) :
    signed tx sig = encode (.list (legacyItems tx p sig)) := by
  rw [signed, hp]
  rfl

theorem signed_dynamic {maxFee tip : Nat} (hp : tx.price = .dynamic maxFee tip) :
    signed tx sig = dynamicMark :: encode (.list (dynamicItems tx maxFee tip sig)) := by
  rw [signed, hp]
  rfl

theorem legacyMark_lt (htx : tx.InRange) (hsig : sig.Standard tx) :
    legacyMark tx.chainId sig.recovery < 2 ^ 256 := by
  have hchain := htx.chainId
  have hrecovery := hsig.recovery
  unfold legacyMark
  omega

theorem length_legacyItems {p : Nat} (htx : tx.InRange) (hp : p < 2 ^ 256)
    (hsig : sig.Standard tx) :
    (encodeAll (legacyItems tx p sig)).length + 9 < lengthLimit := by
  have hnonce := length_number_le (lt_trans htx.nonce (by decide))
  have hprice := length_number_le hp
  have hbody := length_body_le htx
  have hdata := htx.data
  have hmark := length_number_le (legacyMark_lt htx hsig)
  have hr := length_number_le hsig.r
  have hs := length_number_le hsig.s
  rw [legacyItems, encodeAll_append, encodeAll_append]
  simp only [encodeAll, List.length_append, List.length_nil, lengthLimit]
  omega

theorem length_dynamicItems {maxFee tip : Nat} (htx : tx.InRange) (hmax : maxFee < 2 ^ 256)
    (htip : tip < 2 ^ 256) (hsig : sig.Standard tx) :
    (encodeAll (dynamicItems tx maxFee tip sig)).length + 9 < lengthLimit := by
  have hchainId : tx.chainId < 2 ^ 256 := by
    have h := htx.chainId
    omega
  have hchain := length_number_le hchainId
  have hnonce := length_number_le (lt_trans htx.nonce (by decide))
  have hmax := length_number_le hmax
  have htip := length_number_le htip
  have hbody := length_body_le htx
  have hdata := htx.data
  have hempty : (encode (.list [])).length = 1 := by decide
  have hrecovery := length_number_le (lt_trans hsig.recovery (by decide))
  have hr := length_number_le hsig.r
  have hs := length_number_le hsig.s
  rw [dynamicItems, dynamicFields, encodeAll_append, encodeAll_append, encodeAll_append]
  simp only [encodeAll, List.length_append, List.length_nil, lengthLimit]
  omega

theorem read?_signed_legacy {p : Nat} (htx : tx.InRange) (hp : tx.price = .legacy p)
    (hsig : sig.Standard tx) : read? (signed tx sig) = some (tx, sig) := by
  have hparity := hsig.parity p hp
  have hprice : p < 2 ^ 256 := by
    have h := htx.price
    rwa [hp] at h
  obtain ⟨payee, hpayee, -, hrecipient⟩ := recipient_cases tx.recipient
  have hflat : needAll (legacyItems tx p sig) ≤ (legacyItems tx p sig).length + 1 := by
    simp [legacyItems, body, hpayee, Rlp.ofNat, needAll, need]
  have hlen := length_legacyItems htx hprice hsig
  have hread := Rlp.decode?_flat hflat hlen
  obtain ⟨b, rest, hraw, hb⟩ :=
    Rlp.encode_list_head (lt_of_le_of_lt (Nat.le_add_right _ 9) hlen)
  have hkind : b ≠ dynamicMark := by
    rintro rfl
    exact absurd hb (by decide)
  have hrecovery : (legacyMark tx.chainId sig.recovery - 35) % 2 = sig.recovery := by
    unfold legacyMark
    omega
  have hchain : (legacyMark tx.chainId sig.recovery - 35) / 2 = tx.chainId := by
    unfold legacyMark
    omega
  rw [signed_legacy hp]
  rw [hraw] at hread ⊢
  simp only [read?, if_neg hkind, hread]
  simp [legacyItems, body, hpayee, Rlp.ofNat, BigEndian.toNat_shortest, hrecipient, hrecovery,
    hchain, ← hp]

theorem read?_signed_dynamic {maxFee tip : Nat} (htx : tx.InRange)
    (hp : tx.price = .dynamic maxFee tip) (hsig : sig.Standard tx) :
    read? (signed tx sig) = some (tx, sig) := by
  have hprice : maxFee < 2 ^ 256 ∧ tip < 2 ^ 256 := by
    have h := htx.price
    rwa [hp] at h
  obtain ⟨payee, hpayee, -, hrecipient⟩ := recipient_cases tx.recipient
  have hflat : needAll (dynamicItems tx maxFee tip sig) ≤
      (dynamicItems tx maxFee tip sig).length + 1 := by
    simp [dynamicItems, dynamicFields, body, hpayee, Rlp.ofNat, needAll, need]
  have hread := Rlp.decode?_flat hflat (length_dynamicItems htx hprice.1 hprice.2 hsig)
  rw [signed_dynamic hp]
  simp only [read?, if_pos, hread]
  simp [dynamicItems, dynamicFields, body, hpayee, Rlp.ofNat, BigEndian.toNat_shortest, hrecipient,
    ← hp]

/-- Reading undoes writing: no byte is left over, and no field is lost or taken for another. -/
theorem read?_signed (htx : tx.InRange) (hsig : sig.Standard tx) :
    read? (signed tx sig) = some (tx, sig) := by
  cases hp : tx.price with
  | legacy p => exact read?_signed_legacy htx hp hsig
  | dynamic maxFee tip => exact read?_signed_dynamic htx hp hsig

end Envelope

namespace Ecdsa

theorem candidate_used {fuel : Nat} {k v : Bytes} {use : Nat → Option Signature} {sig : Signature}
    (h : candidate fuel k v use = some sig) : ∃ c, use c = some sig := by
  induction fuel generalizing k v with
  | zero => simp [candidate] at h
  | succ fuel ih =>
    simp only [candidate] at h
    split at h
    · next found huse =>
      obtain rfl := Option.some.inj h
      split at huse
      · exact ⟨_, huse⟩
      · simp at huse
    · exact ih h

/-- A parity, and whether the abscissa passes the order of the group. -/
theorem recovery_lt (x y : Nat) : y % 2 + (if Secp256k1.n ≤ x then 2 else 0) < 4 := by
  have hy : y % 2 < 2 := Nat.mod_lt y (by decide)
  split <;> omega

/-- The other one of the two points with the same abscissa. -/
theorem other_recovery_lt {m : Nat} (h : m < 4) : (if m % 2 = 0 then m + 1 else m - 1) < 4 := by
  split <;> omega

/-- Both numbers of a signature are reduced by the order of the group. -/
theorem signWith_parts {key z k : Nat} {sig : Signature} (h : signWith key z k = some sig) :
    sig.recovery < 4 ∧ sig.r < Secp256k1.n ∧ sig.s < Secp256k1.n := by
  have hn : 0 < Secp256k1.n := by decide
  simp only [signWith] at h
  have hrecovery := recovery_lt (Secp256k1.coordinates (Secp256k1.mul k Secp256k1.base)).1
    (Secp256k1.coordinates (Secp256k1.mul k Secp256k1.base)).2
  split at h
  · simp at h
  · split at h
    · obtain rfl := Option.some.inj h
      refine ⟨other_recovery_lt hrecovery, Nat.mod_lt _ hn, ?_⟩
      show Secp256k1.n - _ < Secp256k1.n
      omega
    · obtain rfl := Option.some.inj h
      exact ⟨hrecovery, Nat.mod_lt _ hn, Nat.mod_lt _ hn⟩

theorem sign_parts {key : Nat} {digest : Bytes} {sig : Signature} (h : sign key digest = some sig) :
    sig.recovery < 4 ∧ sig.r < Secp256k1.n ∧ sig.s < Secp256k1.n := by
  obtain ⟨k, hk⟩ := candidate_used h
  exact signWith_parts hk

end Ecdsa

namespace Signer

variable {who : Signer} {tx : Transaction} {s : Signed}

/-- The signature under this transaction, if there is one, has the standard form. -/
def SignsStandard (who : Signer) (tx : Transaction) : Prop :=
  ∀ sig, who.signature (Keccak.digest (Envelope.unsigned tx)) = some sig → sig.Standard tx

/-- A key signs in the standard form. For a legacy transaction the abscissa of the point that was
used must lie below the order of the group: else the parity is not enough to recover the point. -/
theorem ofKey_signsStandard {key : Nat}
    (h : ∀ p, tx.price = .legacy p → ∀ sig,
      (ofKey key).signature (Keccak.digest (Envelope.unsigned tx)) = some sig → sig.recovery ≤ 1) :
    (ofKey key).SignsStandard tx := by
  intro sig hsig
  have hlimit : Secp256k1.n < 2 ^ 256 := by decide
  obtain ⟨hrecovery, hr, hs⟩ := Ecdsa.sign_parts hsig
  exact ⟨hrecovery, fun p hp => h p hp sig hsig, lt_trans hr hlimit, lt_trans hs hlimit⟩

theorem sign_raw (h : who.sign tx = .ok s) :
    ∃ sig, who.signature (Keccak.digest (Envelope.unsigned tx)) = some sig ∧
      s.raw = Envelope.signed tx sig := by
  simp only [sign] at h
  split at h
  · simp at h
  · next sig hsig =>
    obtain rfl := Except.ok.inj h
    exact ⟨sig, hsig, rfl⟩

theorem read?_raw (htx : tx.InRange) (hwho : who.SignsStandard tx) (h : who.sign tx = .ok s) :
    ∃ sig, who.signature (Keccak.digest (Envelope.unsigned tx)) = some sig ∧
      Envelope.read? s.raw = some (tx, sig) := by
  obtain ⟨sig, hsig, hraw⟩ := sign_raw h
  exact ⟨sig, hsig, by rw [hraw, Envelope.read?_signed htx (hwho sig hsig)]⟩

/-- What is signed is the transaction that was asked for, and its bytes are those of no other. A key
signs in the form that this takes. -/
theorem signed_reads_back (who : Signer) {tx : Transaction} {s : Signed} (htx : tx.InRange)
    (hwho : who.SignsStandard tx) (h : who.sign tx = .ok s) :
    (∃ sig, who.signature (Keccak.digest (Envelope.unsigned tx)) = some sig ∧
      Envelope.read? s.raw = some (tx, sig)) ∧
    (∀ tx' s', tx'.InRange → who.SignsStandard tx' → who.sign tx' = .ok s' →
      (s'.raw = s.raw → tx' = tx) ∧ (tx'.nonce ≠ tx.nonce → s'.raw ≠ s.raw)) ∧
    ∀ key, (∀ p, tx.price = .legacy p → ∀ sig,
        (ofKey key).signature (Keccak.digest (Envelope.unsigned tx)) = some sig →
          sig.recovery ≤ 1) →
      (ofKey key).SignsStandard tx := by
  have hread := read?_raw htx hwho h
  have hsame : ∀ tx' s', tx'.InRange → who.SignsStandard tx' → who.sign tx' = .ok s' →
      s'.raw = s.raw → tx' = tx := by
    intro tx' s' htx' hwho' h' hraw
    obtain ⟨sig, -, hsig⟩ := hread
    obtain ⟨sig', -, hsig'⟩ := read?_raw htx' hwho' h'
    rw [hraw, hsig] at hsig'
    exact (congrArg Prod.fst (Option.some.inj hsig')).symm
  refine ⟨hread, ?_, fun key => ofKey_signsStandard⟩
  intro tx' s' htx' hwho' h'
  refine ⟨hsame tx' s' htx' hwho' h', ?_⟩
  intro hnonce hraw
  exact hnonce (congrArg Transaction.nonce (hsame tx' s' htx' hwho' h' hraw))

/-- A deployment of sixty bytes with the largest chain id and number, and its signature by the key
`0xac0974bec39a17e36ba4a6b4d238ff944bacb478cbed5efcae784d7bf4f2ff80`. -/
theorem signed_reads_back_deployment :
    let tx : Transaction :=
      ⟨2 ^ 63 - 19, 2 ^ 64 - 1, 0, .legacy 127, none, 2 ^ 256 - 1, List.replicate 60 0⟩
    let signature : Signature :=
      ⟨1, 0xc53f884ee9b3f15e32512b13fdb81e29a3321876f73ed1fbe784c1e94440b83e,
        0x6bb22d93afd5c37c7b05379facd76fc6c7a1c747d72d837b54d8d992ee242a1a⟩
    let who : Signer :=
      ⟨Address.ofNat 0xf39fd6e51aad88f6f4ce6ab8827279cfffb92266, fun _ => some signature⟩
    tx.InRange ∧ who.SignsStandard tx ∧
      ∃ s, who.sign tx = .ok s ∧ Envelope.read? s.raw = some (tx, signature) := by
  intro tx signature who
  have hprice : (127 : Nat) < 2 ^ 256 := by decide
  have htx : tx.InRange := ⟨by decide, by decide, by decide, hprice, by decide, by decide⟩
  have hwho : who.SignsStandard tx := by
    intro sig hsig
    obtain rfl := Option.some.inj hsig
    exact ⟨by decide, fun _ _ => by decide, by decide, by decide⟩
  obtain ⟨s, hs⟩ : ∃ s, who.sign tx = .ok s := ⟨_, rfl⟩
  obtain ⟨⟨sig, hsig, hread⟩, -⟩ := signed_reads_back who htx hwho hs
  obtain rfl := Option.some.inj hsig
  exact ⟨htx, hwho, s, hs, hread⟩

end Signer

end Outbox
