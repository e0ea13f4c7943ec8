import Vantage.Autobahn.Messages
import Vantage.Wire.KeyText

/-!
# Keys and blocks

Public keys are written as text, or in compact frames as their position in the committee, which a
stranger has not.  A block that passes `block_ok` names three kinds of keys: its author, which has
stake, the authors of the votes for its parent, of which there are none, and the author of its
parent.  Nothing is asked of the last one, and the digest of the block does not depend on it.

* `legacyKeys`, `compactKeys`: the two forms of a key;
* `Session.blockOk`: which blocks are accepted; `Session.blockOk_keys`: the keys in them;
* `header`: the codec; `header_writes`, `header_reads`: accepted blocks are written if the two keys
  in them can be, and read back as they were.
-/

namespace Vantage.Wire

open Autobahn (Crypto Certificate)

/-! ### Keys -/

/-- The bytes of the keys and the text of bytes; a text has fewer than `2 ^ 64` characters. -/
structure Spelling (K : Type) where
  base64 : KeyText.Base64
  bytes : K → KeyText.PublicKey
  ofBytes : KeyText.PublicKey → Option K
  ofBytes_bytes : ∀ k, ofBytes (bytes k) = some k
  length_text : ∀ k, IsU64 (KeyText.encodeBase64 base64 (bytes k)).length

section Keys

variable {K : Type} (X : Spelling K)

/-- The text of a key. -/
def Spelling.encodeBase64 (k : K) : List UInt8 := KeyText.encodeBase64 X.base64 (X.bytes k)

/-- The key that a text stands for; neither an error nor a panic gives one. -/
def Spelling.decodeBase64 (text : List UInt8) : Option K :=
  match KeyText.PublicKey.decodeBase64 X.base64 text with
  | .ok k => X.ofBytes k
  | _ => none

theorem Spelling.decodeBase64_encodeBase64 (k : K) :
    X.decodeBase64 (X.encodeBase64 k) = some k := by
  have htext : KeyText.PublicKey.decodeBase64 X.base64 (X.encodeBase64 k) = .ok (X.bytes k) := by
    have hlong := KeyText.decodeBase64_long (B := X.base64) (X.bytes k) []
    rwa [List.append_nil] at hlong
  rw [decodeBase64, htext]
  exact X.ofBytes_bytes k

/-- Keys as text, behind the length of the text. -/
def legacyKeys : Codec K := KeyText.texts.via (fun k => some (X.encodeBase64 k)) X.decodeBase64

/-- A key is read as `KeyText.deserializeKey` reads it. -/
theorem legacyKeys_decode (frame : List UInt8) : (legacyKeys X).decode frame =
    match KeyText.deserializeKey X.base64 frame with
    | .ok (k, rest) => (X.ofBytes k).map (·, rest)
    | _ => none := by
  simp only [legacyKeys, Codec.via, KeyText.deserializeKey]
  cases KeyText.texts.decode frame with
  | none => rfl
  | some r =>
    simp only [Option.bind_some, Spelling.decodeBase64]
    cases KeyText.PublicKey.decodeBase64 X.base64 r.1 <;> rfl

theorem legacyKeys_exact : (legacyKeys X).Exact where
  writes k _ := by
    have hlen : IsU64 (X.encodeBase64 k).length := X.length_text k
    simp [legacyKeys, KeyText.texts, Codec.byte_exact.writes, hlen]
  reads k :=
    (Codec.Reads.list (Codec.u64_reads _) fun b _ => Codec.byte_exact.reads b).via_some rfl
      (X.decodeBase64_encodeBase64 k)

variable [DecidableEq K]

/-- A key as one byte, its position among the members. -/
def compactKeys (members : List K) : Codec K :=
  (Codec.uint 1).via (fun k => if k ∈ members then some (members.idxOf k) else none)
    (fun i => members[i]?)

omit X in
theorem compactKeys_writes {members : List K} (hlen : members.length ≤ 256) {k : K} :
    (compactKeys members).Writes k ↔ k ∈ members := by
  by_cases hk : k ∈ members
  · have hlt := List.idxOf_lt_length_iff.mpr hk
    simpa [compactKeys, hk] using hlt.trans_le hlen
  · simp [compactKeys, hk]

omit X in
theorem compactKeys_exactOn {members : List K} (hlen : members.length ≤ 256) :
    (compactKeys members).ExactOn (· ∈ members) where
  writes _ := (compactKeys_writes hlen).mpr
  reads k := by
    refine .via fun i hi => ⟨Codec.uint_reads 1 i, ?_⟩
    obtain ⟨hk, heq⟩ := Option.ite_none_right_eq_some.mp hi
    obtain rfl : members.idxOf k = i := Option.some.inj heq
    rw [List.getElem?_eq_getElem (List.idxOf_lt_length_iff.mpr hk), List.getElem_idxOf]

end Keys

/-! ### Blocks -/

/-- A block; `M` is the type of the consensus messages that a car may carry. -/
structure Header (K D S M : Type) where
  author : K
  height : ℕ
  payload : Table D ℕ
  parentCert : Certificate K D S
  id : D
  signature : Option S
  sid : Option D
  consensusMessages : Table D M
  numActiveInstances : ℕ
  special : Bool

/-- What a node checks blocks against. -/
structure Session (K D : Type) where
  committee : Committee K
  sid : D
  maxBlockPayload : ℕ
  worker : K → ℕ → Bool

section Blocks

variable {K D S M : Type} [LinearOrder K] [LinearOrder D] (A : Crypto K D S) (digestOf : M → D)

omit [LinearOrder K] in
/-- What a block binds; of the parent it is only the digest. -/
def Header.preimage (h : Header K D S M) : Autobahn.Preimage K D S :=
  .header h.author h.height
    ((Table.sortedKeys h.payload).filterMap fun d => (h.payload.lookup d).map (d, ·))
    h.parentCert.headerDigest h.sid
    (if h.consensusMessages.entries = [] then none else
      some (h.numActiveInstances,
        (h.consensusMessages.entries.map fun e => digestOf e.2).insertionSort (· ≤ ·)))

/-- The hash of what a block binds. -/
def Header.digest (h : Header K D S M) : D := A.hash (h.preimage digestOf)

/-- State-independent validity. -/
def Session.blockOk (s : Session K D) (h : Header K D S M) : Bool :=
  decide (h.digest A digestOf = h.id) && decide (h.sid = some s.sid) &&
    decide (h.payload.entries.length ≤ s.maxBlockPayload) && decide (1 ≤ h.height) &&
    decide (h.parentCert.height + 1 = h.height) && h.signature.isNone &&
    h.parentCert.votes.isEmpty && h.consensusMessages.entries.isEmpty &&
    decide (h.numActiveInstances = 0) && !h.special && decide (0 < s.committee.stake h.author) &&
    h.payload.entries.all fun e => s.worker h.author e.2

variable {A digestOf} {s : Session K D} {h : Header K D S M}

/-- An accepted block is of a member, and carries neither votes nor consensus messages. -/
theorem Session.blockOk_keys (hok : s.blockOk A digestOf h = true) :
    h.author ∈ s.committee.authorities ∧ h.parentCert.votes = [] ∧ h.consensusMessages = ∅ := by
  simp only [blockOk, Bool.and_eq_true, decide_eq_true_eq, List.isEmpty_iff] at hok
  obtain ⟨⟨⟨⟨⟨⟨-, hvotes⟩, hmessages⟩, -⟩, -⟩, hstake⟩, -⟩ := hok
  refine ⟨?_, hvotes, AList.ext hmessages⟩
  by_contra hmem
  simp [Committee.stake, hmem] at hstake

/-- The numbers that an accepted block fixes. -/
theorem Session.blockOk_numbers (hok : s.blockOk A digestOf h = true) :
    h.parentCert.height < h.height ∧ h.numActiveInstances = 0 := by
  simp only [blockOk, Bool.and_eq_true, decide_eq_true_eq] at hok
  obtain ⟨⟨⟨⟨⟨⟨⟨⟨-, hparent⟩, -⟩, -⟩, -⟩, hactive⟩, -⟩, -⟩, -⟩ := hok
  exact ⟨by omega, hactive⟩

end Blocks

/-! ### Blocks in frames -/

/-- How digests and signatures are written. -/
structure Format (D S : Type) where
  digest : Codec D
  signature : Codec S
  digest_exact : digest.Exact
  signature_exact : signature.Exact

section Header

open Codec (u32 u64)

variable {K D S M : Type} [DecidableEq D] (F : Format D S) (keys : Codec K) (messages : Codec M)

omit [DecidableEq D] in
/-- Votes, one after the other. -/
def votes : Codec (List (K × S)) := (keys.pair F.signature).list u64

omit [DecidableEq D] in
/-- The reference of a block to its parent. -/
def certificate : Codec (Certificate K D S) :=
  (keys.pair (F.digest.pair (u64.pair (votes F keys)))).via
    (fun p => some (p.author, p.headerDigest, p.height, p.votes))
    (fun r => some ⟨r.1, r.2.1, r.2.2.1, r.2.2.2⟩)

/-- A block, field by field. -/
def header : Codec (Header K D S M) :=
  (keys.pair (u64.pair ((Codec.table u64 F.digest u32).pair
    ((certificate F keys).pair (F.digest.pair (F.signature.option.pair (F.digest.option.pair
      ((Codec.table u64 F.digest messages).pair (u64.pair Codec.bool))))))))).via
    (fun h => some (h.author, h.height, h.payload, h.parentCert, h.id, h.signature, h.sid,
      h.consensusMessages, h.numActiveInstances, h.special))
    (fun r => some ⟨r.1, r.2.1, r.2.2.1, r.2.2.2.1, r.2.2.2.2.1, r.2.2.2.2.2.1, r.2.2.2.2.2.2.1,
      r.2.2.2.2.2.2.2.1, r.2.2.2.2.2.2.2.2.1, r.2.2.2.2.2.2.2.2.2⟩)

/-- The numbers and lengths that the checks leave open are those of the machine. -/
structure Header.Sized (h : Header K D S M) : Prop where
  height : IsU64 h.height
  payload : IsU64 h.payload.entries.length
  workers : ∀ d worker, h.payload.lookup d = some worker → IsU32 worker

variable {keys messages} {h : Header K D S M}

/-- A block without votes and messages can be written if its two keys can. -/
theorem header_writes (hsized : h.Sized) (hvotes : h.parentCert.votes = [])
    (hmessages : h.consensusMessages = ∅) (hheight : IsU64 h.parentCert.height)
    (hactive : IsU64 h.numActiveInstances) :
    (header F keys messages).Writes h ↔
      keys.Writes h.author ∧ keys.Writes h.parentCert.author := by
  have hzero : IsU64 0 := by decide
  have hcert : (certificate F keys).Writes h.parentCert ↔ keys.Writes h.parentCert.author := by
    simp [certificate, votes, hvotes, hheight, hzero, F.digest_exact.writes]
  simp only [header, Codec.writes_via, Option.some.injEq, exists_eq_left', Codec.writes_pair, hcert,
    hmessages, Codec.writes_u64, Codec.writes_table, Codec.writes_option, Codec.writes_u32,
    F.digest_exact.writes, F.signature_exact.writes, Codec.bool_exact.writes, hactive,
    hsized.height, hsized.payload]
  simpa [hzero] using fun _ _ => hsized.workers

/-- Without messages, a block is read back as it was if keys are. -/
theorem header_reads (hkeys : ∀ k, keys.Reads k) (hmessages : h.consensusMessages = ∅) :
    (header F keys messages).Reads h := by
  have hvotes : (votes F keys).Reads h.parentCert.votes :=
    .list (Codec.u64_reads _) fun v _ => (hkeys v.1).pair (F.signature_exact.reads v.2)
  have hcert : (certificate F keys).Reads h.parentCert :=
    ((hkeys _).pair ((F.digest_exact.reads _).pair ((Codec.u64_reads _).pair hvotes))).via_some
      rfl rfl
  have hpayload : (Codec.table u64 F.digest u32).Reads h.payload :=
    .table Codec.u64_reads F.digest_exact.reads fun _ w _ => Codec.u32_reads w
  have hnone : (Codec.table u64 F.digest messages).Reads h.consensusMessages :=
    .table Codec.u64_reads F.digest_exact.reads (by simp [hmessages])
  exact ((hkeys _).pair ((Codec.u64_reads _).pair (hpayload.pair (hcert.pair
    ((F.digest_exact.reads _).pair ((Codec.Reads.option fun x _ => F.signature_exact.reads x).pair
      ((Codec.Reads.option fun x _ => F.digest_exact.reads x).pair (hnone.pair
        ((Codec.u64_reads _).pair (Codec.bool_exact.reads _)))))))))).via_some rfl rfl

end Header

end Vantage.Wire
