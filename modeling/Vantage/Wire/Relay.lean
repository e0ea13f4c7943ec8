import Vantage.Wire.Blocks

/-!
# Relaying blocks

A node keeps the blocks that pass `block_ok` and sends them on when a peer asks, and takes for
granted that they can be written.  In a compact frame a key that is not a member cannot, and the
author of a block's parent is the one key that nothing is asked of.

* `HeaderMessage`: the messages that carry blocks; `HeaderMessage.codec`: how they are written;
* `VantageWireCodec.serialize`, `VantageWireCodec.deserialize`: frames with keys in both forms;
* `VantageWireCodec.roundTrip_iff`: a frame is read back by nodes of both settings, if it exists;
* `accepted_blocks_relay`: accepted blocks can be sent on in frames of both kinds exactly if the
  authors of their parents are members.
-/

namespace Vantage.Wire

open Autobahn (Crypto)

/-! ### Messages that carry blocks -/

/-- The messages between primaries that carry blocks. -/
inductive HeaderMessage (K D S M : Type)
  | header (h : Header K D S M) (serve : Bool)
  | vantageSequenceHeaders (hs : List (Header K D S M)) (sender : K)
  | proposalHeaders (hs : List (Header K D S M))

namespace HeaderMessage

variable {K D S M : Type} [DecidableEq D] (F : Format D S) (keys : Codec K) (messages : Codec M)

/-- The blocks in a message. -/
def headers : HeaderMessage K D S M → List (Header K D S M)
  | header h _ => [h]
  | vantageSequenceHeaders hs _ => hs
  | proposalHeaders hs => hs

/-- The key of the node that a message is from, where it says so. -/
def sender : HeaderMessage K D S M → Option K
  | vantageSequenceHeaders _ sender => some sender
  | _ => none

/-- The position of the variant in the enumeration of all primary messages. -/
def tag : HeaderMessage K D S M → ℕ
  | header .. => 0
  | vantageSequenceHeaders .. => 60
  | proposalHeaders .. => 63

/-- The fields of the variant at a position. -/
def body (tag : ℕ) : Codec (HeaderMessage K D S M) :=
  match tag with
  | 0 => ((Wire.header F keys messages).pair Codec.bool).via
      (fun m => match m with | .header h serve => some (h, serve) | _ => none)
      (fun r => some (.header r.1 r.2))
  | 60 => (((Wire.header F keys messages).list .u64).pair keys).via
      (fun m => match m with | .vantageSequenceHeaders hs sender => some (hs, sender) | _ => none)
      (fun r => some (.vantageSequenceHeaders r.1 r.2))
  | 63 => ((Wire.header F keys messages).list .u64).via
      (fun m => match m with | .proposalHeaders hs => some hs | _ => none)
      (fun r => some (.proposalHeaders r))
  | _ => .fail

/-- A message, behind the position of its variant. -/
def codec : Codec (HeaderMessage K D S M) := .tagged .u32 tag (body F keys messages)

variable {F keys messages} {m : HeaderMessage K D S M}

/-- A message can be written if its blocks and its sender can. -/
theorem codec_writes (hlen : IsU64 m.headers.length) : (codec F keys messages).Writes m ↔
    (∀ h ∈ m.headers, (Wire.header F keys messages).Writes h) ∧ ∀ k ∈ m.sender, keys.Writes k := by
  have htag : IsU32 m.tag := by cases m <;> simp [tag, IsU32]
  rw [codec, Codec.writes_tagged, Codec.writes_u32, and_iff_right htag]
  cases m with
  | header h serve => simp [tag, body, headers, sender, Codec.bool_exact.writes]
  | vantageSequenceHeaders hs sender =>
    have hlen : IsU64 hs.length := hlen
    simp [tag, body, headers, HeaderMessage.sender, hlen]
  | proposalHeaders hs =>
    have hlen : IsU64 hs.length := hlen
    simp [tag, body, headers, sender, hlen]

theorem codec_reads (hkeys : ∀ k, keys.Reads k)
    (hheaders : ∀ h ∈ m.headers, (Wire.header F keys messages).Reads h) :
    (codec F keys messages).Reads m := by
  refine .tagged (Codec.u32_reads _) ?_
  cases m with
  | header h serve =>
    have hbody := (hheaders h (List.mem_singleton_self h)).pair (Codec.bool_exact.reads serve)
    simp only [tag, body]
    exact Codec.Reads.via_some hbody rfl rfl
  | vantageSequenceHeaders hs sender =>
    have hbody := (Codec.Reads.list (Codec.u64_reads _) hheaders).pair (hkeys sender)
    simp only [tag, body]
    exact Codec.Reads.via_some hbody rfl rfl
  | proposalHeaders hs =>
    have hbody := Codec.Reads.list (Codec.u64_reads _) hheaders
    simp only [tag, body]
    exact Codec.Reads.via_some hbody rfl rfl

end HeaderMessage

/-! ### Frames -/

/-- How a compact frame starts: `VCI1`. -/
def compactIdPrefixBytes : List UInt8 := [86, 67, 73, 49]

/-- A codec of a node; the members are there if one byte can tell them apart. -/
structure VantageWireCodec (K : Type) where
  compactOutbound : Bool
  publicKeys : Option (List K)

namespace VantageWireCodec

variable {K D S M : Type} [LinearOrder K] [DecidableEq D]

/-- Compact frames need at most 256 members. -/
def new (committee : Committee K) (compactOutbound : Bool) : Option (VantageWireCodec K) :=
  if committee.sorted.length ≤ 256 then some ⟨compactOutbound, some committee.sorted⟩
  else if compactOutbound then none
  else some ⟨false, none⟩

variable (X : Spelling K) (F : Format D S) (messages : Codec M)

/-- A frame of the kind that the node sends. -/
def serialize (w : VantageWireCodec K) (m : HeaderMessage K D S M) : Option (List UInt8) :=
  if w.compactOutbound then
    w.publicKeys.bind fun members =>
      ((HeaderMessage.codec F (compactKeys members) messages).encode m).map
        (compactIdPrefixBytes ++ ·)
  else (HeaderMessage.codec F (legacyKeys X) messages).encode m

/-- A frame that does not start as a compact one is read as text. -/
def deserialize (w : VantageWireCodec K) (bytes : List UInt8) : Option (HeaderMessage K D S M) :=
  if compactIdPrefixBytes.isPrefixOf bytes then
    w.publicKeys.bind fun members =>
      ((HeaderMessage.codec F (compactKeys members) messages).decode (bytes.drop 4)).map Prod.fst
  else ((HeaderMessage.codec F (legacyKeys X) messages).decode bytes).map Prod.fst

/-- The form in which a node writes keys. -/
def outKeys (compact : Bool) (members : List K) : Codec K :=
  if compact then compactKeys members else legacyKeys X

variable {X F messages} {m : HeaderMessage K D S M} {bytes : List UInt8}

omit [LinearOrder K] in
/-- A frame in text starts with the number of its variant, so it is not a compact one. -/
theorem legacy_not_compact (h : (HeaderMessage.codec F (legacyKeys X) messages).encode m =
    some bytes) : compactIdPrefixBytes.isPrefixOf bytes = false := by
  simp only [HeaderMessage.codec, Codec.tagged, Option.bind_eq_bind, Option.bind_eq_some_iff,
    Option.some.injEq] at h
  obtain ⟨front, hfront, back, -, rfl⟩ := h
  cases m <;> cases hfront <;> rfl

/-- In a committee of at most 256 both forms of keys are exact on the members. -/
theorem outKeys_exactOn {c : Committee K} (hsize : c.size ≤ 256) (compact : Bool) :
    (outKeys X compact c.sorted).ExactOn (· ∈ c.authorities) := by
  cases compact with
  | false => exact ⟨fun k _ => (legacyKeys_exact X).writes k trivial, (legacyKeys_exact X).reads⟩
  | true =>
    have hkeys : (compactKeys c.sorted).ExactOn (· ∈ c.sorted) :=
      compactKeys_exactOn (by rwa [c.sorted_length])
    exact ⟨fun k hk => hkeys.writes k (c.mem_sorted.mpr hk), hkeys.reads⟩

/-- A frame exists if the message can be written with the keys of the node, and is then read back
by nodes of both settings. -/
theorem roundTrip_iff {compact : Bool} {members : List K}
    (hreads : (HeaderMessage.codec F (outKeys X compact members) messages).Reads m)
    (compact' : Bool) :
    (∃ bytes, serialize X F messages ⟨compact, some members⟩ m = some bytes ∧
        deserialize X F messages ⟨compact', some members⟩ bytes = some m) ↔
      (HeaderMessage.codec F (outKeys X compact members) messages).Writes m := by
  rw [Codec.writes_iff]
  cases compact with
  | false =>
    refine ⟨fun ⟨bytes, he, _⟩ => ⟨bytes, he⟩, fun ⟨bytes, he⟩ => ⟨bytes, he, ?_⟩⟩
    have hd : (HeaderMessage.codec F (legacyKeys X) messages).decode bytes = some (m, []) := by
      rw [← List.append_nil bytes]
      exact hreads bytes he []
    simp [deserialize, legacy_not_compact he, hd]
  | true =>
    constructor
    · rintro ⟨frame, hframe, -⟩
      obtain ⟨bytes, he, -⟩ := Option.map_eq_some_iff.mp hframe
      exact ⟨bytes, he⟩
    · rintro ⟨bytes, he⟩
      have he : (HeaderMessage.codec F (compactKeys members) messages).encode m = some bytes := he
      have hd : (HeaderMessage.codec F (compactKeys members) messages).decode bytes =
          some (m, []) := by
        rw [← List.append_nil bytes]
        exact hreads bytes he []
      refine ⟨compactIdPrefixBytes ++ bytes, by simp [serialize, he], ?_⟩
      simp [deserialize, compactIdPrefixBytes, List.isPrefixOf, hd]

end VantageWireCodec

/-! ### What a node accepts it can send on -/

section Relay

variable {K D S M : Type} [LinearOrder K] [LinearOrder D] {A : Crypto K D S} {digestOf : M → D}
  {X : Spelling K} {F : Format D S} {messages : Codec M} {s : Session K D}

variable (F messages) in
/-- Accepted blocks are read back, and can be sent on if the two keys in each can be written. -/
theorem relay_iff {compact : Bool} {members : List K} {P : K → Prop}
    (hkeys : (VantageWireCodec.outKeys X compact members).ExactOn P) {m : HeaderMessage K D S M}
    (hlen : IsU64 m.headers.length) (hsized : ∀ h ∈ m.headers, h.Sized)
    (hok : ∀ h ∈ m.headers, s.blockOk A digestOf h = true) (hauthor : ∀ h ∈ m.headers, P h.author)
    (hsender : ∀ k ∈ m.sender, P k) (compact' : Bool) :
    (∃ bytes, VantageWireCodec.serialize X F messages ⟨compact, some members⟩ m = some bytes ∧
        VantageWireCodec.deserialize X F messages ⟨compact', some members⟩ bytes = some m) ↔
      ∀ h ∈ m.headers,
        (VantageWireCodec.outKeys X compact members).Writes h.parentCert.author := by
  have hreads : (HeaderMessage.codec F (VantageWireCodec.outKeys X compact members)
      messages).Reads m :=
    HeaderMessage.codec_reads hkeys.reads fun h hh =>
      header_reads F hkeys.reads (Session.blockOk_keys (hok h hh)).2.2
  rw [VantageWireCodec.roundTrip_iff hreads compact', HeaderMessage.codec_writes hlen,
    and_iff_left fun k hk => hkeys.writes k (hsender k hk)]
  refine forall₂_congr fun h hh => ?_
  obtain ⟨-, hvotes, hmessages⟩ := Session.blockOk_keys (hok h hh)
  obtain ⟨hparent, hactive⟩ := Session.blockOk_numbers (hok h hh)
  rw [header_writes F (hsized h hh) hvotes hmessages (hparent.trans (hsized h hh).height)
      (by rw [hactive]; decide),
    and_iff_right (hkeys.writes _ (hauthor h hh))]

/-- Accepted blocks can be sent on in frames of both kinds, and are read back as they are by nodes
of both settings, exactly if the authors of their parents are members. -/
theorem accepted_blocks_relay (X : Spelling K) (F : Format D S) (messages : Codec M)
    (s : Session K D) (hsize : s.committee.size ≤ 256) (m : HeaderMessage K D S M)
    (hlen : IsU64 m.headers.length) (hsized : ∀ h ∈ m.headers, h.Sized)
    (hok : ∀ h ∈ m.headers, s.blockOk A digestOf h = true)
    (hsender : ∀ k ∈ m.sender, k ∈ s.committee.authorities) :
    (∀ compact compact' : Bool, ∃ w w' bytes,
        VantageWireCodec.new s.committee compact = some w ∧
        VantageWireCodec.new s.committee compact' = some w' ∧
        w.serialize X F messages m = some bytes ∧ w'.deserialize X F messages bytes = some m) ↔
      ∀ h ∈ m.headers, h.parentCert.author ∈ s.committee.authorities := by
  have hmembers : s.committee.sorted.length ≤ 256 := by rwa [s.committee.sorted_length]
  have hrelay := fun compact : Bool => relay_iff F messages
    (VantageWireCodec.outKeys_exactOn (X := X) hsize compact) hlen hsized hok
    (fun h hh => (Session.blockOk_keys (hok h hh)).1) hsender
  constructor
  · intro h
    obtain ⟨w, w', bytes, hw, hw', hbytes, hback⟩ := h true true
    obtain rfl : ⟨true, some s.committee.sorted⟩ = w :=
      Option.some.inj ((if_pos hmembers).symm.trans hw)
    obtain rfl : ⟨true, some s.committee.sorted⟩ = w' :=
      Option.some.inj ((if_pos hmembers).symm.trans hw')
    intro h hh
    have hwrites := (hrelay true true).mp ⟨bytes, hbytes, hback⟩ h hh
    exact s.committee.mem_sorted.mp ((compactKeys_writes hmembers).mp hwrites)
  · intro hparent compact compact'
    obtain ⟨bytes, hbytes, hback⟩ := (hrelay compact compact').mpr fun h hh =>
      (VantageWireCodec.outKeys_exactOn hsize compact).writes _ (hparent h hh)
    exact ⟨⟨compact, some s.committee.sorted⟩, ⟨compact', some s.committee.sorted⟩, bytes,
      if_pos hmembers, if_pos hmembers, hbytes, hback⟩

/-- Two keys, each of 32 equal bytes. -/
def twoKeys : Spelling (Fin 2) where
  base64 := KeyText.standard
  bytes k := ⟨List.replicate 32 (UInt8.ofNat k), List.length_replicate⟩
  ofBytes b := b.1.head?.map fun b => if b = 0 then 0 else 1
  ofBytes_bytes := by decide
  length_text := by decide +kernel

/-- Reads ones up to a zero. -/
def readUnary : List UInt8 → Option (ℕ × List UInt8)
  | [] => none
  | byte :: bytes =>
    if byte = 0 then some (0, bytes) else (readUnary bytes).map fun r => (r.1 + 1, r.2)

/-- A number as so many ones and a zero. -/
def unary : Codec ℕ := ⟨fun n => some (List.replicate n 1 ++ [0]), readUnary⟩

theorem unary_exact : unary.Exact where
  writes _ _ := rfl
  reads n := by
    rintro _ ⟨⟩ rest
    change readUnary (List.replicate n 1 ++ [0] ++ rest) = some (n, rest)
    induction n with
    | zero => simp [readUnary]
    | succ n ih => simpa [List.replicate_succ, readUnary] using ih

/-- Digests and signatures as ones. -/
def unaryFormat : Format ℕ ℕ := ⟨unary, unary, unary_exact, unary_exact⟩

/-- A hash that numbers what is hashed. -/
def counting : Crypto (Fin 2) ℕ ℕ := .numbering fun _ _ _ => true

/-- A committee of the first of two keys. -/
def alone : Session (Fin 2) ℕ := ⟨⟨{0}, fun _ => 1, by simp⟩, 9, 10, fun _ _ => true⟩

/-- The first block of the only member; its parent has digest 4 and the author given. -/
def firstBlock (parent : Fin 2) : Header (Fin 2) ℕ ℕ Unit where
  author := 0
  height := 1
  payload := ∅
  parentCert := ⟨parent, 4, 0, []⟩
  id := counting.hash (.header 0 1 [] 4 (some 9) none)
  signature := none
  sid := some 9
  consensusMessages := ∅
  numActiveInstances := 0
  special := false

theorem firstBlock_ok (parent : Fin 2) :
    alone.blockOk counting (fun _ => 0) (firstBlock parent) = true := by
  simp [Session.blockOk, Header.digest, Header.preimage, firstBlock, alone, Table.sortedKeys,
    Committee.stake]

theorem firstBlock_sized (parent : Fin 2) : (firstBlock parent).Sized := by
  constructor <;> simp [firstBlock, IsU64]

/-- A block whose parent is said to be of the only member goes out in a compact frame, and is read
by a node that sends text. -/
theorem accepted_blocks_relay_firstBlock :
    ∃ w w' bytes, VantageWireCodec.new alone.committee true = some w ∧
      VantageWireCodec.new alone.committee false = some w' ∧
      w.serialize twoKeys unaryFormat .unit (.header (firstBlock 0) true) = some bytes ∧
      w'.deserialize twoKeys unaryFormat .unit bytes = some (.header (firstBlock 0) true) :=
  (accepted_blocks_relay twoKeys unaryFormat .unit alone (by decide) (.header (firstBlock 0) true)
    (by decide) (List.forall_mem_singleton.mpr (firstBlock_sized 0))
    (List.forall_mem_singleton.mpr (firstBlock_ok 0)) (by simp [HeaderMessage.sender])).mpr
    (by simp [HeaderMessage.headers, firstBlock, alone]) true false

/-- A block whose parent is said to be of a stranger arrives in text and is accepted, and cannot be
sent on in a compact frame. -/
theorem stranger_parent_stuck :
    ∃ w frame, VantageWireCodec.new alone.committee true = some w ∧
      w.deserialize twoKeys unaryFormat .unit frame = some (.header (firstBlock 1) false) ∧
      alone.blockOk counting (fun _ => 0) (firstBlock 1) = true ∧
      w.serialize twoKeys unaryFormat .unit (.header (firstBlock 1) true) = none := by
  have hkeys : (VantageWireCodec.outKeys twoKeys false alone.committee.sorted).ExactOn
      fun _ => True := legacyKeys_exact twoKeys
  obtain ⟨frame, -, hback⟩ := (relay_iff unaryFormat .unit (s := alone) hkeys
    (m := .header (firstBlock 1) false) (by decide)
    (List.forall_mem_singleton.mpr (firstBlock_sized 1))
    (List.forall_mem_singleton.mpr (firstBlock_ok 1)) (fun _ _ => trivial) (fun _ _ => trivial)
    true).mpr fun h _ => hkeys.writes _ trivial
  refine ⟨⟨true, some alone.committee.sorted⟩, frame, if_pos (by decide), hback,
    firstBlock_ok 1, ?_⟩
  have hstranger : (compactKeys alone.committee.sorted).encode 1 = none := by decide
  simp [VantageWireCodec.serialize, HeaderMessage.codec, Codec.tagged, HeaderMessage.tag,
    HeaderMessage.body, header, certificate, Codec.via, Codec.pair, firstBlock, hstranger]

end Relay

end Vantage.Wire
