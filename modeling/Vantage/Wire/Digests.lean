import Mathlib.Data.Set.Function
import Vantage.Lib.Delimited
import Vantage.Wire.Blocks

/-!
# The strings behind the digests

Every digest is the hash of a string.  The strings of one kind bind the fields in them, and those
of two kinds of signed objects differ: by their tags, or by their lengths for the headers, which
have no tag.

* `Layout`, `Preimage.updates`, `Preimage.bytes`: what the hasher is fed;
* `bytes_header_inj`, `bytes_poa_inj` and the like: strings of one kind bind their fields;
* `block_ids_bind`: accepted blocks of one id agree; `signing_digests_bind`: what equal digests of
  signed objects mean, down to the votes in a cut.
-/

namespace Vantage.Wire

open Autobahn

/-! ### The strings -/

/-- A signature of one of the two schemes. -/
inductive ConsensusSignature
  | ed25519 (bytes : {b : List UInt8 // b.length = 64})
  | postQuantum (payload : List UInt8)
  deriving DecidableEq

def ConsensusSignature.toCanonicalBytes : ConsensusSignature → List UInt8
  | .ed25519 bytes => 0 :: bytes.1
  | .postQuantum payload => 1 :: payload

theorem ConsensusSignature.toCanonicalBytes_injective :
    Function.Injective ConsensusSignature.toCanonicalBytes := by
  rintro (a | a) (b | b) h
  · exact congrArg _ (Subtype.ext (List.tail_eq_of_cons_eq h))
  · exact absurd (List.head_eq_of_cons_eq h) (by decide)
  · exact absurd (List.head_eq_of_cons_eq h) (by decide)
  · exact congrArg _ (List.tail_eq_of_cons_eq h)

/-- Keys and digests are 32 bytes each. -/
structure Layout (K D : Type) where
  key : K → List UInt8
  digest : D → List UInt8
  key_length : ∀ k, (key k).length = 32
  digest_length : ∀ d, (digest d).length = 32
  key_injective : Function.Injective key
  digest_injective : Function.Injective digest

def ascii (s : String) : List UInt8 := s.toList.map fun c => UInt8.ofNat c.toNat

def u64 (n : ℕ) : List UInt8 := Codec.digits 8 n

def u32 (n : ℕ) : List UInt8 := Codec.digits 4 n

section Strings

variable {K D : Type} (L : Layout K D)

/-- An optional digest, behind a byte that says whether it is there. -/
def Layout.presence (d : Option D) : List UInt8 := d.elim [0] fun d => 1 :: L.digest d

def Layout.vote (v : K × ConsensusSignature) : List UInt8 :=
  L.key v.1 ++ (u64 v.2.toCanonicalBytes.length ++ v.2.toCanonicalBytes)

/-- What the hasher is fed, one update after the other. -/
def Preimage.updates : Autobahn.Preimage K D ConsensusSignature → List (List UInt8)
  | .tip d height none => [L.digest d, u64 height]
  | .tip d height (some e) =>
    [ascii "autobahn-tip-v1", L.digest d, u64 height, [1], L.digest e]
  | .poa author height d votes => [ascii "autobahn-poa-v1", L.key author, u64 height, L.digest d,
      u64 votes.length, votes.flatMap L.vote]
  | .qc id votes =>
    [ascii "autobahn-qc-v1", L.digest id, u64 votes.length, votes.flatMap L.vote]
  | .cut entries => [ascii "autobahn-cut-v1", u64 entries.length,
      entries.flatMap fun e => L.key e.1 ++ L.digest e.2]
  | .prepare slot view cut => [ascii "autobahn-prepare-v1", u64 slot, u64 view, L.digest cut]
  | .confirm slot view prepareId =>
    [ascii "autobahn-confirm-v1", u64 slot, u64 view, L.digest prepareId]
  | .commit slot view qcId cut =>
    [ascii "autobahn-commit-v1", u64 slot, u64 view, L.digest qcId, L.digest cut]
  | .carVote author height d =>
    [ascii "autobahn-car-vote-v1", L.key author, u64 height, L.digest d]
  | .timeout slot view author highQc highProp =>
    [ascii "autobahn-timeout-v1", u64 slot, u64 view, L.key author, L.presence highQc,
      L.presence highProp]
  | .header author height payload parent sid rideShare => [L.key author, u64 height,
      payload.flatMap fun e => L.digest e.1 ++ u32 e.2, L.digest parent, L.presence sid,
      rideShare.elim [] fun r => ascii "autobahn-rideshare-v1" ++ (u64 r.1 ++ (u64 r.2.length ++
        r.2.flatMap L.digest))]
  | .headerVerified id signature =>
    [ascii "header-verified-v1", L.digest id, signature.toCanonicalBytes]
  | .confirmVerified message qc => [ascii "confirm-verified-v1", L.digest message, L.digest qc]
  | .commitVerified message qc => [ascii "commit-verified-v1", L.digest message, L.digest qc]
  | .voteVerified d author signature =>
    [ascii "vote-verified-v1", L.digest d, L.key author, signature.toCanonicalBytes]
  | .consensusVoteVerified d author signature =>
    [ascii "consensus-vote-verified-v1", L.digest d, L.key author, signature.toCanonicalBytes]
  | .consensusRequestVerified d author signature =>
    [ascii "consensus-request-verified-v1", L.digest d, L.key author, signature.toCanonicalBytes]

def Preimage.bytes (p : Autobahn.Preimage K D ConsensusSignature) : List UInt8 :=
  (updates L p).flatten

/-- The hash of the strings, as the hash of what they stand for. -/
def Layout.crypto (blake3 : List UInt8 → D) (verifies : ConsensusSignature → D → K → Bool)
    (zero : D) : Crypto K D ConsensusSignature :=
  ⟨fun p => blake3 (Preimage.bytes L p), verifies, zero⟩

/-- The numbers and lengths are those of the machine types. -/
def Preimage.Fits : Autobahn.Preimage K D ConsensusSignature → Prop
  | .tip _ height _ => height < 2 ^ 64
  | .poa _ height _ votes => height < 2 ^ 64 ∧ votes.length < 2 ^ 64 ∧
      ∀ v ∈ votes, v.2.toCanonicalBytes.length < 2 ^ 64
  | .cut entries => entries.length < 2 ^ 64
  | .prepare slot view _ | .confirm slot view _ | .commit slot view _ _ |
    .timeout slot view _ _ _ => slot < 2 ^ 64 ∧ view < 2 ^ 64
  | .carVote _ height _ => height < 2 ^ 64
  | .header _ height payload _ _ _ => height < 2 ^ 64 ∧ ∀ e ∈ payload, e.2 < 2 ^ 32
  | _ => True

/-! ### Fields -/

@[simp] theorem length_u64 (n : ℕ) : (u64 n).length = 8 := rfl

@[simp] theorem length_u32 (n : ℕ) : (u32 n).length = 4 := rfl

@[simp] theorem Layout.length_key (k : K) : (L.key k).length = 32 := L.key_length k

@[simp] theorem Layout.length_digest (d : D) : (L.digest d).length = 32 := L.digest_length d

theorem u64_delimits : Delimits u64 {n | n < 2 ^ 64} := Delimits.digits 8

theorem u32_delimits : Delimits u32 {n | n < 2 ^ 32} := Delimits.digits 4

theorem Layout.key_delimits : Delimits L.key Set.univ :=
  .of_length L.key_length L.key_injective

theorem Layout.digest_delimits : Delimits L.digest Set.univ :=
  .of_length L.digest_length L.digest_injective

theorem Layout.presence_delimits : Delimits L.presence Set.univ := by
  intro a _ b _ x y h
  exact L.digest_delimits.option (fun _ _ => trivial) (fun _ _ => trivial) h

theorem Layout.vote_delimits :
    Delimits L.vote {v | v.2.toCanonicalBytes.length < 2 ^ 64} := by
  rintro ⟨k, x⟩ hx ⟨k', x'⟩ hx' r r' h
  simp only [vote, List.append_assoc] at h
  obtain ⟨rfl, hsized⟩ := L.key_delimits trivial trivial h
  obtain ⟨hlen, hboth⟩ := u64_delimits hx hx' hsized
  obtain ⟨hsig, hrest⟩ := List.append_inj hboth hlen
  exact ⟨Prod.ext rfl (ConsensusSignature.toCanonicalBytes_injective hsig), hrest⟩

/-! ### Strings of one kind -/

variable {L} {author author' : K} {height height' slot slot' view view' : ℕ} {d d' : D}

theorem bytes_carVote_inj
    (h : Preimage.bytes L (.carVote author height d) =
      Preimage.bytes L (.carVote author' height' d'))
    (hn : height < 2 ^ 64) (hn' : height' < 2 ^ 64) :
    author = author' ∧ height = height' ∧ d = d' := by
  simp only [Preimage.bytes, Preimage.updates, List.flatten_cons, List.append_cancel_left_eq] at h
  obtain ⟨hauthor, h₁⟩ := L.key_delimits trivial trivial h
  obtain ⟨hheight, h₂⟩ := u64_delimits hn hn' h₁
  exact ⟨hauthor, hheight, (L.digest_delimits trivial trivial h₂).1⟩

/-- A slot, a view and a digest behind one tag, as in a Prepare and in a Confirm. -/
theorem slot_view_digest_inj {tag : List UInt8}
    (h : [tag, u64 slot, u64 view, L.digest d].flatten =
      [tag, u64 slot', u64 view', L.digest d'].flatten)
    (hn : slot < 2 ^ 64 ∧ view < 2 ^ 64) (hn' : slot' < 2 ^ 64 ∧ view' < 2 ^ 64) :
    slot = slot' ∧ view = view' ∧ d = d' := by
  simp only [List.flatten_cons, List.append_cancel_left_eq] at h
  obtain ⟨hslot, h₁⟩ := u64_delimits hn.1 hn'.1 h
  obtain ⟨hview, h₂⟩ := u64_delimits hn.2 hn'.2 h₁
  exact ⟨hslot, hview, (L.digest_delimits trivial trivial h₂).1⟩

theorem bytes_timeout_inj {highQc highProp highQc' highProp' : Option D}
    (h : Preimage.bytes L (.timeout slot view author highQc highProp) =
      Preimage.bytes L (.timeout slot' view' author' highQc' highProp'))
    (hn : slot < 2 ^ 64 ∧ view < 2 ^ 64) (hn' : slot' < 2 ^ 64 ∧ view' < 2 ^ 64) :
    slot = slot' ∧ view = view' ∧ author = author' ∧ highQc = highQc' ∧ highProp = highProp' := by
  simp only [Preimage.bytes, Preimage.updates, List.flatten_cons, List.append_cancel_left_eq] at h
  obtain ⟨hslot, h₁⟩ := u64_delimits hn.1 hn'.1 h
  obtain ⟨hview, h₂⟩ := u64_delimits hn.2 hn'.2 h₁
  obtain ⟨hauthor, h₃⟩ := L.key_delimits trivial trivial h₂
  obtain ⟨hqc, h₄⟩ := L.presence_delimits trivial trivial h₃
  exact ⟨hslot, hview, hauthor, hqc, (L.presence_delimits trivial trivial h₄).1⟩

theorem bytes_cut_inj {entries entries' : List (K × D)}
    (h : Preimage.bytes L (.cut entries) = Preimage.bytes L (.cut entries'))
    (hn : entries.length < 2 ^ 64) (hn' : entries'.length < 2 ^ 64) : entries = entries' := by
  have hentry := L.key_delimits.append L.digest_delimits
  simp only [Preimage.bytes, Preimage.updates, List.flatten_cons, List.append_cancel_left_eq] at h
  obtain ⟨hlen, h₁⟩ := u64_delimits hn hn' h
  exact (hentry.flatMap (fun _ _ => ⟨trivial, trivial⟩) (fun _ _ => ⟨trivial, trivial⟩) hlen h₁).1

theorem bytes_tip_inj {e e' : Option D}
    (h : Preimage.bytes L (.tip d height e) = Preimage.bytes L (.tip d' height' e'))
    (hn : height < 2 ^ 64) (hn' : height' < 2 ^ 64) : d = d' ∧ height = height' ∧ e = e' := by
  have hlength := congrArg List.length h
  cases e with
  | none =>
    cases e' with
    | none =>
      simp only [Preimage.bytes, Preimage.updates, List.flatten_cons] at h
      obtain ⟨hd, h₁⟩ := L.digest_delimits trivial trivial h
      exact ⟨hd, (u64_delimits hn hn' h₁).1, rfl⟩
    | some e' => simp [Preimage.bytes, Preimage.updates] at hlength
  | some e =>
    cases e' with
    | none => simp [Preimage.bytes, Preimage.updates] at hlength
    | some e' =>
      simp only [Preimage.bytes, Preimage.updates, List.flatten_cons,
        List.append_cancel_left_eq] at h
      obtain ⟨hd, h₁⟩ := L.digest_delimits trivial trivial h
      obtain ⟨hheight, h₂⟩ := u64_delimits hn hn' h₁
      rw [List.append_cancel_left_eq] at h₂
      exact ⟨hd, hheight, congrArg some (L.digest_delimits trivial trivial h₂).1⟩

theorem bytes_poa_inj {votes votes' : List (K × ConsensusSignature)}
    (h : Preimage.bytes L (.poa author height d votes) =
      Preimage.bytes L (.poa author' height' d' votes'))
    (hn : Preimage.Fits (.poa author height d votes))
    (hn' : Preimage.Fits (.poa author' height' d' votes')) :
    author = author' ∧ height = height' ∧ d = d' ∧ votes = votes' := by
  simp only [Preimage.bytes, Preimage.updates, List.flatten_cons, List.append_cancel_left_eq] at h
  obtain ⟨hauthor, h₁⟩ := L.key_delimits trivial trivial h
  obtain ⟨hheight, h₂⟩ := u64_delimits hn.1 hn'.1 h₁
  obtain ⟨hd, h₃⟩ := L.digest_delimits trivial trivial h₂
  obtain ⟨hlen, h₄⟩ := u64_delimits hn.2.1 hn'.2.1 h₃
  exact ⟨hauthor, hheight, hd, (L.vote_delimits.flatMap hn.2.2 hn'.2.2 hlen h₄).1⟩

theorem length_payload (payload : List (D × ℕ)) :
    (payload.flatMap fun e => L.digest e.1 ++ u32 e.2).length = 36 * payload.length := by
  induction payload with
  | nil => rfl
  | cons e payload ih =>
    simp only [List.flatMap_cons, List.length_append, List.length_cons, ih, L.length_digest,
      length_u32]
    omega

theorem length_presence (d : Option D) :
    (L.presence d).length = 1 ∨ (L.presence d).length = 33 := by
  cases d with
  | none => exact .inl rfl
  | some d => exact .inr (congrArg (· + 1) (L.length_digest d))

theorem length_flatMap_digest (ds : List D) : (ds.flatMap L.digest).length = 32 * ds.length := by
  induction ds with
  | nil => rfl
  | cons d ds ih =>
    rw [List.flatMap_cons, List.length_append, ih, L.length_digest, List.length_cons]
    omega

/-- The entries have no count in front of them: the length of the whole gives it. -/
theorem bytes_header_inj {payload payload' : List (D × ℕ)} {parent parent' sid sid' : D}
    (h : Preimage.bytes L (.header author height payload parent (some sid) none) =
      Preimage.bytes L (.header author' height' payload' parent' (some sid') none))
    (hn : Preimage.Fits (.header author height payload parent (some sid) none))
    (hn' : Preimage.Fits (.header author' height' payload' parent' (some sid') none)) :
    author = author' ∧ height = height' ∧ payload = payload' ∧ parent = parent' ∧ sid = sid' := by
  have hentry := L.digest_delimits.append u32_delimits
  have hlength := congrArg List.length h
  simp only [Preimage.bytes, Preimage.updates, List.flatten_cons, Option.elim_none,
    Option.elim_some, Layout.presence] at h hlength
  simp only [List.length_append, length_payload, L.length_digest, L.length_key, length_u64,
    List.length_cons] at hlength
  obtain ⟨hauthor, h₁⟩ := L.key_delimits trivial trivial h
  obtain ⟨hheight, h₂⟩ := u64_delimits hn.1 hn'.1 h₁
  obtain ⟨hpayload, h₃⟩ := hentry.flatMap (fun e he => ⟨trivial, hn.2 e he⟩)
    (fun e he => ⟨trivial, hn'.2 e he⟩) (by omega) h₂
  obtain ⟨hparent, h₄⟩ := L.digest_delimits trivial trivial h₃
  have h₅ := List.tail_eq_of_cons_eq h₄
  exact ⟨hauthor, hheight, hpayload, hparent, (L.digest_delimits trivial trivial h₅).1⟩

end Strings

/-! ### Blocks -/

section Blocks

variable {K D M : Type} [LinearOrder K] [LinearOrder D] (A : Crypto K D ConsensusSignature)
  (digestOf : M → D)

/-- Accepted blocks of one id agree on everything that a block carries, under any committees and
sessions, if the hash has no collision between their strings. -/
theorem block_ids_bind (L : Layout K D) (blake3 : List UInt8 → D)
    (verifies : ConsensusSignature → D → K → Bool) (zero : D) (s s' : Session K D)
    (h h' : Header K D ConsensusSignature M)
    (hfits : Preimage.Fits (h.preimage digestOf)) (hfits' : Preimage.Fits (h'.preimage digestOf))
    (hfree : Set.InjOn blake3
      {Preimage.bytes L (h.preimage digestOf), Preimage.bytes L (h'.preimage digestOf)})
    (hok : s.blockOk (L.crypto blake3 verifies zero) digestOf h = true)
    (hok' : s'.blockOk (L.crypto blake3 verifies zero) digestOf h' = true) (hid : h.id = h'.id) :
    h.author = h'.author ∧ h.height = h'.height ∧
      (∀ d, h.payload.lookup d = h'.payload.lookup d) ∧
      h.parentCert.headerDigest = h'.parentCert.headerDigest ∧
      h.parentCert.height = h'.parentCert.height ∧ h.sid = h'.sid := by
  have hnone := (Session.blockOk_keys hok).2.2
  have hnone' := (Session.blockOk_keys hok').2.2
  simp only [Session.blockOk, Bool.and_eq_true, decide_eq_true_eq] at hok hok'
  obtain ⟨⟨⟨⟨⟨⟨⟨⟨⟨⟨⟨hdigest, hsid⟩, -⟩, -⟩, hparent⟩, -⟩, -⟩, -⟩, -⟩, -⟩, -⟩, -⟩ := hok
  obtain ⟨⟨⟨⟨⟨⟨⟨⟨⟨⟨⟨hdigest', hsid'⟩, -⟩, -⟩, hparent'⟩, -⟩, -⟩, -⟩, -⟩, -⟩, -⟩, -⟩ := hok'
  have hbytes : Preimage.bytes L (h.preimage digestOf) = Preimage.bytes L (h'.preimage digestOf) :=
    hfree (by simp) (by simp) (hdigest.trans (hid.trans hdigest'.symm))
  simp only [Header.preimage, hnone, hnone', hsid, hsid'] at hbytes hfits hfits'
  obtain ⟨hauthor, hheight, hpayload, hd, hs⟩ := bytes_header_inj hbytes hfits hfits'
  refine ⟨hauthor, hheight, fun d => ?_, hd, by omega, by rw [hsid, hsid', hs]⟩
  ext w
  have hmem : ∀ t : Table D ℕ, t.lookup d = some w ↔
      (d, w) ∈ (Table.sortedKeys t).filterMap fun d => (t.lookup d).map (d, ·) := fun t => by
    rw [Table.mem_sorted_entries, Option.map_id']
  rw [hmem, hmem, hpayload]

end Blocks

def oneByte : Layout (Fin 256) (Fin 256) where
  key k := UInt8.ofNat k :: List.replicate 31 0
  digest d := UInt8.ofNat d :: List.replicate 31 0
  key_length _ := rfl
  digest_length _ := rfl
  key_injective := by
    intro a b h
    have hbyte := congrArg UInt8.toNat (List.head_eq_of_cons_eq h)
    simp only [UInt8.toNat_ofNat'] at hbyte
    omega
  digest_injective := by
    intro a b h
    have hbyte := congrArg UInt8.toNat (List.head_eq_of_cons_eq h)
    simp only [UInt8.toNat_ofNat'] at hbyte
    omega

def byteSum (bytes : List UInt8) : Fin 256 :=
  bytes.foldl (fun sum b => sum + Fin.ofNat 256 b.toNat) 0

def sumCrypto : Crypto (Fin 256) (Fin 256) ConsensusSignature :=
  oneByte.crypto byteSum (fun _ _ _ => true) 0

def soleSession : Session (Fin 256) (Fin 256) :=
  ⟨⟨{0}, fun _ => 1, by simp⟩, 9, 10, fun _ _ => true⟩

def batchBlock (parent : Fin 256) : Header (Fin 256) (Fin 256) ConsensusSignature Unit where
  author := 0
  height := 1
  payload := AList.insert 5 2 ∅
  parentCert := ⟨parent, 4, 0, []⟩
  id := byteSum (Preimage.bytes oneByte (.header 0 1 [(5, 2)] 4 (some 9) none))
  signature := none
  sid := some 9
  consensusMessages := ∅
  numActiveInstances := 0
  special := false

theorem block_ids_bind_batchBlock :
    soleSession.blockOk sumCrypto (fun _ => 0) (batchBlock 0) = true ∧
      (batchBlock 0).sid = (batchBlock 1).sid := by
  have hok : soleSession.blockOk sumCrypto (fun _ => 0) (batchBlock 0) = true := by decide +kernel
  have hok' : soleSession.blockOk sumCrypto (fun _ => 0) (batchBlock 1) = true := by decide +kernel
  have hlist : (Table.sortedKeys (batchBlock 0).payload).filterMap
      (fun d => ((batchBlock 0).payload.lookup d).map (d, ·)) = [(5, 2)] := by decide +kernel
  have hfits : Preimage.Fits ((batchBlock 0).preimage fun _ => 0) := by
    refine ⟨by decide, ?_⟩
    rw [hlist]
    decide
  refine ⟨hok, (block_ids_bind (fun _ => 0) oneByte byteSum (fun _ _ _ => true) 0 soleSession
    soleSession (batchBlock 0) (batchBlock 1) hfits hfits ?_ hok hok' rfl).2.2.2.2.2⟩
  rintro x (rfl | rfl) y (rfl | rfl) - <;> rfl

/-! ### Signed objects -/

section Signed

variable {K D : Type} [LinearOrder K] [LinearOrder D] (A : Crypto K D ConsensusSignature)

/-- What authorities put their signatures on. -/
inductive Signed (K D : Type)
  | car (h : Header K D ConsensusSignature (ConsensusMessage K D ConsensusSignature))
  | carVote (origin : K) (height : ℕ) (id : D)
  | message (m : ConsensusMessage K D ConsensusSignature)
  | timeout (t : Timeout K D ConsensusSignature)

/-- What a member signs. -/
inductive SigningKind
  | car
  | carVote
  | prepare
  | confirm
  | commit
  | timeout
  deriving DecidableEq

def SigningKind.tag : SigningKind → String
  | car => ""
  | carVote => "autobahn-car-vote-v1"
  | prepare => "autobahn-prepare-v1"
  | confirm => "autobahn-confirm-v1"
  | commit => "autobahn-commit-v1"
  | timeout => "autobahn-timeout-v1"

namespace Signed

def kind : Signed K D → SigningKind
  | .car _ => .car
  | .carVote .. => .carVote
  | .message (.prepare ..) => .prepare
  | .message (.confirm ..) => .confirm
  | .message (.commit ..) => .commit
  | .timeout _ => .timeout

def digest : Signed K D → D
  | .car h => h.digest A (ConsensusMessage.digest A)
  | .carVote origin height id => carVoteDigest A origin height id
  | .message m => m.digest A
  | .timeout t => t.digest A

def preimage : Signed K D → Autobahn.Preimage K D ConsensusSignature
  | .car h => h.preimage (ConsensusMessage.digest A)
  | .carVote origin height id => .carVote origin height id
  | .message (.prepare slot view p) => .prepare slot view (proposalsDigest A p)
  | .message (.confirm slot view _ p) => .confirm slot view (prepareDigest A slot view p)
  | .message (.commit slot view qc p) => .commit slot view qc.id (proposalsDigest A p)
  | .timeout t => .timeout t.slot t.view t.author (t.highQc.map (ConsensusMessage.digest A))
      (t.highProp.map (ConsensusMessage.digest A))

theorem digest_eq (x : Signed K D) : x.digest A = A.hash (x.preimage A) := by
  rcases x with _ | _ | ⟨_ | _ | _⟩ | _ <;> rfl

variable {A} {L : Layout K D}

/-- Every kind but that of the headers starts with its tag, and its string has one of these
lengths. -/
theorem tagged {x : Signed K D} (hx : x.kind ≠ .car) :
    (∃ rest, Preimage.bytes L (x.preimage A) = ascii x.kind.tag ++ rest) ∧
      (Preimage.bytes L (x.preimage A)).length ∈ [92, 67, 98, 69, 101, 133] := by
  rcases x with h | ⟨origin, height, id⟩ | ⟨⟨slot, view, p⟩ | ⟨slot, view, qc, p⟩ |
    ⟨slot, view, qc, p⟩⟩ | t
  · exact absurd rfl hx
  · have htag : (ascii "autobahn-car-vote-v1").length = 20 := rfl
    exact ⟨⟨_, rfl⟩, by simp [preimage, Preimage.bytes, Preimage.updates, htag]⟩
  · have htag : (ascii "autobahn-prepare-v1").length = 19 := rfl
    exact ⟨⟨_, rfl⟩, by simp [preimage, Preimage.bytes, Preimage.updates, htag]⟩
  · have htag : (ascii "autobahn-confirm-v1").length = 19 := rfl
    exact ⟨⟨_, rfl⟩, by simp [preimage, Preimage.bytes, Preimage.updates, htag]⟩
  · have htag : (ascii "autobahn-commit-v1").length = 18 := rfl
    exact ⟨⟨_, rfl⟩, by simp [preimage, Preimage.bytes, Preimage.updates, htag]⟩
  · have htag : (ascii "autobahn-timeout-v1").length = 19 := rfl
    have hlen : ∀ q p : Option D, (Preimage.bytes L (.timeout t.slot t.view t.author q p)).length ∈
        [92, 67, 98, 69, 101, 133] := by
      intro q p
      rcases length_presence (L := L) q with hq | hq <;>
        rcases length_presence (L := L) p with hp | hp <;>
          simp [Preimage.bytes, Preimage.updates, htag, hq, hp]
    exact ⟨⟨_, rfl⟩, hlen _ _⟩

theorem length_car (h : Header K D ConsensusSignature (ConsensusMessage K D ConsensusSignature)) :
    (Preimage.bytes L ((Signed.car h).preimage A)).length ∉ [92, 67, 98, 69, 101, 133] := by
  have htag : (ascii "autobahn-rideshare-v1").length = 21 := rfl
  have hsid := length_presence (L := L) h.sid
  simp only [preimage, Header.preimage, Preimage.bytes, Preimage.updates, List.flatten_cons,
    List.length_append, length_payload, Layout.length_key, Layout.length_digest, length_u64,
    List.flatten_nil, List.length_nil, List.mem_cons, List.not_mem_nil, or_false]
  split_ifs with hnone
  · simp only [Option.elim_none, List.length_nil]
    omega
  · have hpos : 0 < h.consensusMessages.entries.length := List.length_pos_iff.mpr hnone
    simp only [Option.elim_some, List.length_append, htag, length_u64, length_flatMap_digest,
      List.length_insertionSort, List.length_map]
    omega

/-- The strings of two kinds differ: tags within their first 12 bytes, headers by their length. -/
theorem kind_eq_of_bytes {x y : Signed K D}
    (h : Preimage.bytes L (x.preimage A) = Preimage.bytes L (y.preimage A)) : x.kind = y.kind := by
  have htags : ∀ k k' : SigningKind, k ≠ .car → k' ≠ .car →
      (ascii k.tag).take 12 = (ascii k'.tag).take 12 → k = k' := by
    intro k k'
    cases k <;> cases k' <;> decide +kernel
  have hlong : ∀ k : SigningKind, k ≠ .car → 12 ≤ (ascii k.tag).length := by
    intro k
    cases k <;> decide +kernel
  have hcar : ∀ {z : Signed K D}, z.kind = .car → ∃ h, z = .car h := by
    rintro (h | _ | ⟨_ | _ | _⟩ | _) hz
    all_goals first | exact ⟨h, rfl⟩ | cases hz
  by_cases hx : x.kind = .car
  · by_cases hy : y.kind = .car
    · rw [hx, hy]
    · obtain ⟨hdr, rfl⟩ := hcar hx
      exact absurd (h ▸ (tagged (A := A) (L := L) hy).2) (length_car hdr)
  · by_cases hy : y.kind = .car
    · obtain ⟨hdr, rfl⟩ := hcar hy
      exact absurd (h ▸ (tagged (A := A) (L := L) hx).2) (length_car hdr)
    · obtain ⟨rest, hr⟩ := (tagged (A := A) (L := L) hx).1
      obtain ⟨rest', hr'⟩ := (tagged (A := A) (L := L) hy).1
      refine htags _ _ hx hy ?_
      have hfront := congrArg (List.take 12) h
      rwa [hr, hr', List.take_append_of_le_length (hlong _ hx),
        List.take_append_of_le_length (hlong _ hy)] at hfront

end Signed

/-! ### What equal digests mean -/

/-- The same votes for the same car, in any order. -/
def CertificateAgrees (p q : Certificate K D ConsensusSignature) : Prop :=
  p.author = q.author ∧ p.headerDigest = q.headerDigest ∧ p.height = q.height ∧
    p.votes.Perm q.votes

def ProposalAgrees (p q : Proposal K D ConsensusSignature) : Prop :=
  p.headerDigest = q.headerDigest ∧ p.height = q.height ∧ Option.Rel CertificateAgrees p.poa q.poa

/-- The same lanes with the same tips and the same evidence. -/
def CutAgrees (p q : Cut K D ConsensusSignature) : Prop :=
  ∀ lane, Option.Rel ProposalAgrees (p.lookup lane) (q.lookup lane)

def Signed.Agrees : Signed K D → Signed K D → Prop
  | .car _, .car _ => True
  | .carVote origin height id, .carVote origin' height' id' =>
    origin = origin' ∧ height = height' ∧ id = id'
  | .message (.prepare slot view p), .message (.prepare slot' view' q) =>
    slot = slot' ∧ view = view' ∧ CutAgrees p q
  | .message (.confirm slot view _ p), .message (.confirm slot' view' _ q) =>
    slot = slot' ∧ view = view' ∧ CutAgrees p q
  | .message (.commit ..), .message (.commit ..) => True
  | .timeout t, .timeout t' => t.slot = t'.slot ∧ t.view = t'.view ∧ t.author = t'.author ∧
      t.highQc.map (ConsensusMessage.digest A) = t'.highQc.map (ConsensusMessage.digest A) ∧
      t.highProp.map (ConsensusMessage.digest A) = t'.highProp.map (ConsensusMessage.digest A)
  | _, _ => False

def certificatePreimage (c : Certificate K D ConsensusSignature) :
    Autobahn.Preimage K D ConsensusSignature :=
  .poa c.author c.height c.headerDigest (sortVotes c.votes)

def proposalHashed (p : Proposal K D ConsensusSignature) :
    Set (Autobahn.Preimage K D ConsensusSignature) :=
  {x | x = .tip p.headerDigest p.height (p.poa.map (Certificate.evidenceDigest A)) ∨
    ∃ c ∈ p.poa, x = certificatePreimage c}

def cutPreimage (p : Cut K D ConsensusSignature) : Autobahn.Preimage K D ConsensusSignature :=
  .cut ((Table.sortedKeys p).filterMap fun lane =>
    (p.lookup lane).map fun proposal => (lane, proposal.digest A))

def cutHashed (p : Cut K D ConsensusSignature) : Set (Autobahn.Preimage K D ConsensusSignature) :=
  {x | x = cutPreimage A p ∨
    ∃ lane proposal, p.lookup lane = some proposal ∧ x ∈ proposalHashed A proposal}

/-- What is hashed for a signed object; of the messages in a car or a timeout it is only the
digests that are compared. -/
def Signed.hashed (x : Signed K D) : Set (Autobahn.Preimage K D ConsensusSignature) :=
  {y | y = x.preimage A ∨
    match x with
    | .message (.prepare _ _ p) => y ∈ cutHashed A p
    | .message (.confirm slot view _ p) =>
      y = .prepare slot view (proposalsDigest A p) ∨ y ∈ cutHashed A p
    | _ => False}

/-- Among the strings that were hashed no two have one digest. -/
structure CollisionFreeOn (L : Layout K D) (blake3 : List UInt8 → D)
    (H : Set (Autobahn.Preimage K D ConsensusSignature)) : Prop where
  fits : ∀ p ∈ H, Preimage.Fits p
  injOn : Set.InjOn blake3 (Preimage.bytes L '' H)

section Binding

variable {L : Layout K D} {blake3 : List UInt8 → D}
  {H : Set (Autobahn.Preimage K D ConsensusSignature)}
  {verifies : ConsensusSignature → D → K → Bool} {zero : D}

omit [LinearOrder K] [LinearOrder D] in
theorem CollisionFreeOn.bytes_eq (hH : CollisionFreeOn L blake3 H)
    {p q : Autobahn.Preimage K D ConsensusSignature} (hp : p ∈ H) (hq : q ∈ H)
    (h : (L.crypto blake3 verifies zero).hash p = (L.crypto blake3 verifies zero).hash q) :
    Preimage.bytes L p = Preimage.bytes L q :=
  hH.injOn ⟨p, hp, rfl⟩ ⟨q, hq, rfl⟩ h

omit [LinearOrder D] in
theorem certificate_agrees (hH : CollisionFreeOn L blake3 H)
    {p q : Certificate K D ConsensusSignature} (hp : certificatePreimage p ∈ H)
    (hq : certificatePreimage q ∈ H)
    (h : p.evidenceDigest (L.crypto blake3 verifies zero) =
      q.evidenceDigest (L.crypto blake3 verifies zero)) : CertificateAgrees p q := by
  obtain ⟨hauthor, hheight, hd, hvotes⟩ :=
    bytes_poa_inj (hH.bytes_eq hp hq h) (hH.fits _ hp) (hH.fits _ hq)
  refine ⟨hauthor, hd, hheight, ?_⟩
  have hsort : ∀ votes : List (K × ConsensusSignature), (sortVotes votes).Perm votes :=
    List.perm_insertionSort _
  exact (hsort p.votes).symm.trans (hvotes ▸ hsort q.votes)

omit [LinearOrder D] in
theorem proposal_agrees (hH : CollisionFreeOn L blake3 H) {p q : Proposal K D ConsensusSignature}
    (hp : proposalHashed (L.crypto blake3 verifies zero) p ⊆ H)
    (hq : proposalHashed (L.crypto blake3 verifies zero) q ⊆ H)
    (h : p.digest (L.crypto blake3 verifies zero) = q.digest (L.crypto blake3 verifies zero)) :
    ProposalAgrees p q := by
  have htip := hp (.inl rfl)
  have htip' := hq (.inl rfl)
  obtain ⟨hd, hheight, hpoa⟩ :=
    bytes_tip_inj (hH.bytes_eq htip htip' h) (hH.fits _ htip) (hH.fits _ htip')
  refine ⟨hd, hheight, ?_⟩
  have hcert : ∀ c ∈ p.poa, certificatePreimage c ∈ H := fun c hc => hp (.inr ⟨c, hc, rfl⟩)
  have hcert' : ∀ c ∈ q.poa, certificatePreimage c ∈ H := fun c hc => hq (.inr ⟨c, hc, rfl⟩)
  revert hpoa hcert hcert'
  rcases p.poa with _ | c <;> rcases q.poa with _ | c' <;> intro hpoa hcert hcert'
  · exact .none
  · cases hpoa
  · cases hpoa
  · exact .some (certificate_agrees hH (hcert c rfl) (hcert' c' rfl) (Option.some.inj hpoa))

omit [LinearOrder D] in
theorem cut_agrees (hH : CollisionFreeOn L blake3 H) {p q : Cut K D ConsensusSignature}
    (hp : cutHashed (L.crypto blake3 verifies zero) p ⊆ H)
    (hq : cutHashed (L.crypto blake3 verifies zero) q ⊆ H)
    (h : proposalsDigest (L.crypto blake3 verifies zero) p =
      proposalsDigest (L.crypto blake3 verifies zero) q) : CutAgrees p q := by
  have hcut := hp (.inl rfl)
  have hcut' := hq (.inl rfl)
  have hlist := bytes_cut_inj (hH.bytes_eq hcut hcut' h) (hH.fits _ hcut) (hH.fits _ hcut')
  intro lane
  have hlane : (p.lookup lane).map (Proposal.digest (L.crypto blake3 verifies zero)) =
      (q.lookup lane).map (Proposal.digest (L.crypto blake3 verifies zero)) := by
    ext d
    rw [← Table.mem_sorted_entries, ← Table.mem_sorted_entries, hlist]
  cases hl : p.lookup lane with
  | none =>
    cases hl' : q.lookup lane with
    | none => exact .none
    | some proposal' =>
      rw [hl, hl'] at hlane
      cases hlane
  | some proposal =>
    cases hl' : q.lookup lane with
    | none =>
      rw [hl, hl'] at hlane
      cases hlane
    | some proposal' =>
      rw [hl, hl'] at hlane
      exact .some (proposal_agrees hH (fun x hx => hp (.inr ⟨lane, proposal, hl, hx⟩))
        (fun x hx => hq (.inr ⟨lane, proposal', hl', hx⟩)) (Option.some.inj hlane))

/-- Signed objects of one digest are of one kind and agree, and so do cuts of one digest, if the
hash has no collision among what was hashed for them. -/
theorem signing_digests_bind (L : Layout K D) (blake3 : List UInt8 → D)
    (verifies : ConsensusSignature → D → K → Bool) (zero : D)
    (H : Set (Autobahn.Preimage K D ConsensusSignature)) (hH : CollisionFreeOn L blake3 H) :
    let A := L.crypto blake3 verifies zero
    (∀ x y : Signed K D, x.hashed A ⊆ H → y.hashed A ⊆ H → x.digest A = y.digest A →
      x.Agrees A y) ∧
    ∀ p q : Cut K D ConsensusSignature, cutHashed A p ⊆ H → cutHashed A q ⊆ H →
      proposalsDigest A p = proposalsDigest A q → CutAgrees p q := by
  intro A
  refine ⟨fun x y hx hy h => ?_, fun p q hp hq => cut_agrees hH hp hq⟩
  rw [Signed.digest_eq, Signed.digest_eq] at h
  have htop := hx (.inl rfl)
  have htop' := hy (.inl rfl)
  have hbytes := hH.bytes_eq htop htop' h
  have hfits := hH.fits _ htop
  have hfits' := hH.fits _ htop'
  have hkind := Signed.kind_eq_of_bytes hbytes
  rcases x with _ | ⟨origin, height, id⟩ | ⟨⟨slot, view, p⟩ | ⟨slot, view, qc, p⟩ |
      ⟨slot, view, qc, p⟩⟩ | t <;>
    rcases y with _ | ⟨origin', height', id'⟩ | ⟨⟨slot', view', q⟩ | ⟨slot', view', qc', q⟩ |
      ⟨slot', view', qc', q⟩⟩ | t' <;>
    try cases hkind
  · trivial
  · exact bytes_carVote_inj hbytes hfits hfits'
  · obtain ⟨hslot, hview, hcut⟩ := slot_view_digest_inj hbytes hfits hfits'
    exact ⟨hslot, hview, cut_agrees hH (fun z hz => hx (.inr hz)) (fun z hz => hy (.inr hz)) hcut⟩
  · obtain ⟨hslot, hview, hprepare⟩ := slot_view_digest_inj hbytes hfits hfits'
    have hmem := hx (.inr (.inl rfl))
    have hmem' := hy (.inr (.inl rfl))
    have hcut := (slot_view_digest_inj (hH.bytes_eq hmem hmem' hprepare) (hH.fits _ hmem)
      (hH.fits _ hmem')).2.2
    exact ⟨hslot, hview, cut_agrees hH (fun z hz => hx (.inr (.inr hz)))
      (fun z hz => hy (.inr (.inr hz))) hcut⟩
  · trivial
  · exact bytes_timeout_inj hbytes hfits hfits'

end Binding

end Signed

def someSigned : Bool → Signed (Fin 256) (Fin 256)
  | true => .carVote 0 1 2
  | false => .message (.commit 1 1 ⟨3, []⟩ ∅)

theorem signing_digests_bind_someSigned :
    (someSigned true).digest sumCrypto ≠ (someSigned false).digest sumCrypto := by
  have hfits : ∀ b, Preimage.Fits ((someSigned b).preimage sumCrypto) := by
    rintro (_ | _)
    · exact ⟨by decide, by decide⟩
    · exact (by decide : 1 < 2 ^ 64)
  have hsums : ∀ b b', byteSum (Preimage.bytes oneByte ((someSigned b).preimage sumCrypto)) =
      byteSum (Preimage.bytes oneByte ((someSigned b').preimage sumCrypto)) → b = b' := by
    decide +kernel
  have hH : CollisionFreeOn oneByte byteSum
      (Set.range fun b => (someSigned b).preimage sumCrypto) := by
    refine ⟨?_, ?_⟩
    · rintro p ⟨b, rfl⟩
      exact hfits b
    · rintro x ⟨p, ⟨b, rfl⟩, rfl⟩ y ⟨q, ⟨b', rfl⟩, rfl⟩ h
      rw [hsums b b' h]
  have hhashed : ∀ b, (someSigned b).hashed sumCrypto ⊆
      Set.range fun b => (someSigned b).preimage sumCrypto := by
    rintro (_ | _) p (rfl | hp)
    · exact ⟨false, rfl⟩
    · exact hp.elim
    · exact ⟨true, rfl⟩
    · exact hp.elim
  exact (signing_digests_bind oneByte byteSum (fun _ _ _ => true) 0 _ hH).1 (someSigned true)
    (someSigned false) (hhashed true) (hhashed false)

end Vantage.Wire
