import Mathlib.Data.Set.Function
import Mathlib.Data.List.Infix
import Vantage.Lib.Delimited

/-!
# Authenticated channels

A connection between two members carries frames: a length, a payload and a tag over the direction,
the number of the frame and the payload, under a key of this connection.  The receiver checks each
tag against the number of the frame that it expects.
-/

namespace Vantage.Network

/-! ### Ends and keys -/

/-- The two ends of a connection. -/
inductive Role
  | dialer
  | listener
  deriving DecidableEq

namespace Role

def peer : Role → Role
  | dialer => listener
  | listener => dialer

def sendDirection : Role → UInt8
  | dialer => 0
  | listener => 1

def recvDirection : Role → UInt8
  | dialer => listener.sendDirection
  | listener => dialer.sendDirection

theorem recvDirection_eq (role : Role) : role.recvDirection = role.peer.sendDirection := by
  cases role <;> rfl

theorem sendDirection_injective : Function.Injective sendDirection := by
  intro a b
  cases a <;> cases b <;> decide

end Role

/-- A keyed hash of 32 bytes. -/
structure KeyedHash where
  hash : List UInt8 → List UInt8 → List UInt8
  length_hash : ∀ key message, (hash key message).length = 32

variable (B : KeyedHash)

/-- Binds a static key to one connection through the salts of both parties, the dialer's first. -/
def channelSessionKey (root dialerSalt listenerSalt : List UInt8) : List UInt8 :=
  B.hash root (dialerSalt ++ listenerSalt)

/-- The key that an end derives from its own salt and the one it received. -/
def handshakeKey (root : List UInt8) : Role → List UInt8 → List UInt8 → List UInt8
  | .dialer, own, received => channelSessionKey B root own received
  | .listener, own, received => channelSessionKey B root received own

/-! ### Frames -/

def maxFrameLength : ℕ := 64 * 1024 * 1024

def tagLen : ℕ := 16

/-- What is authenticated: the direction, the number of the frame and its payload. -/
def tagInput (direction : UInt8) (counter : ℕ) (payload : List UInt8) : List UInt8 :=
  direction :: (Codec.digits 8 counter ++ payload)

def tag (key : List UInt8) (direction : UInt8) (counter : ℕ) (payload : List UInt8) : List UInt8 :=
  (B.hash key (tagInput direction counter payload)).take tagLen

/-- The comparison that takes the same time wherever the tags differ. -/
def tagsMatch (left right : List UInt8) : Bool :=
  if left.length ≠ right.length then false
  else decide ((left.zip right).foldl (fun difference b => difference ||| (b.1 ^^^ b.2)) 0 = 0)

def lengthBytes (n : ℕ) : List UInt8 := (Codec.digits 4 n).reverse

/-- What the length-delimited decoder finds at the front of its buffer. -/
inductive Framing
  | pending
  | tooLong
  | frame (frame rest : List UInt8)

def readFrame (limit : ℕ) (buf : List UInt8) : Framing :=
  if buf.length < 4 then .pending
  else
    match Codec.readDigits 4 (buf.take 4).reverse with
    | none => .pending
    | some (n, _) =>
      if limit < n then .tooLong
      else if buf.length < 4 + n then .pending
      else .frame ((buf.drop 4).take n) (buf.drop (4 + n))

/-- Key, role and counters of one authenticated connection. -/
structure Session where
  key : List UInt8
  role : Role
  sent : ℕ
  received : ℕ

/-- A codec with or without a session. -/
structure AuthCodec where
  session : Option Session
  payloadLimit : ℕ

namespace AuthCodec

def authenticated (key : List UInt8) (role : Role) : AuthCodec :=
  ⟨some ⟨key, role, 0, 0⟩, maxFrameLength⟩

/-- The limit of the frame sits above that of the payload, to make room for the tag. -/
def frameLimit (c : AuthCodec) : ℕ :=
  match c.session with
  | some _ => c.payloadLimit + tagLen
  | none => c.payloadLimit

/-- How encoding a frame ends. -/
inductive Encoded
  | ok (c : AuthCodec) (bytes : List UInt8)
  | refused
  | panicked

/-- A payload above the limit is refused; a counter at the end of its range stops the sender. -/
def encode (c : AuthCodec) (data : List UInt8) : Encoded :=
  match c.session with
  | none =>
    if c.frameLimit < data.length then .refused else .ok c (lengthBytes data.length ++ data)
  | some s =>
    if c.payloadLimit < data.length then .refused
    else if s.sent + 1 < 2 ^ 64 then
      .ok { c with session := some { s with sent := s.sent + 1 } }
        (lengthBytes (data.length + tagLen) ++
          (data ++ tag B s.key s.role.sendDirection s.sent data))
    else .panicked

/-- How decoding a buffer ends. -/
inductive Decoded
  | pending
  | failed
  | frame (payload : List UInt8) (c : AuthCodec) (rest : List UInt8)

/-- The tag of a frame is checked against the direction and the number that are expected. -/
def decode (c : AuthCodec) (src : List UInt8) : Decoded :=
  match readFrame c.frameLimit src with
  | .pending => .pending
  | .tooLong => .failed
  | .frame frame rest =>
    match c.session with
    | none => .frame frame c rest
    | some s =>
      if frame.length < tagLen then .failed
      else
        let payload := frame.take (frame.length - tagLen)
        let received := frame.drop (frame.length - tagLen)
        if tagsMatch received (tag B s.key s.role.recvDirection s.received payload) then
          if s.received + 1 < 2 ^ 64 then
            .frame payload { c with session := some { s with received := s.received + 1 } } rest
          else .failed
        else .failed

def encodeAll : AuthCodec → List (List UInt8) → Option (List UInt8)
  | _, [] => some []
  | c, payload :: payloads =>
    match c.encode B payload with
    | .ok c' bytes => (c'.encodeAll payloads).map (bytes ++ ·)
    | .refused => c.encodeAll payloads
    | .panicked => none

/-- All frames in the buffer: what they yield, and the codec with the rest unless there was an
error. -/
def drain : ℕ → AuthCodec → List UInt8 → List (List UInt8) × Option (AuthCodec × List UInt8)
  | 0, c, src => ([], some (c, src))
  | fuel + 1, c, src =>
    match c.decode B src with
    | .pending => ([], some (c, src))
    | .failed => ([], none)
    | .frame payload c' rest =>
      (payload :: (drain fuel c' rest).1, (drain fuel c' rest).2)

/-- A receiver that is fed chunk by chunk, up to its first error. -/
def run : AuthCodec → List UInt8 → List (List UInt8) →
    List (List UInt8) × Option (AuthCodec × List UInt8)
  | c, buf, [] => ([], some (c, buf))
  | c, buf, chunk :: chunks =>
    let x := c.drain B (buf ++ chunk).length (buf ++ chunk)
    match x.2 with
    | none => (x.1, none)
    | some (c', buf') => (x.1 ++ (run c' buf' chunks).1, (run c' buf' chunks).2)

end AuthCodec

/-! ### Framing -/

@[simp] theorem length_lengthBytes (n : ℕ) : (lengthBytes n).length = 4 := rfl

theorem length_tag (key : List UInt8) (direction : UInt8) (counter : ℕ) (payload : List UInt8) :
    (tag B key direction counter payload).length = tagLen := by
  rw [tag, List.length_take, B.length_hash]
  rfl

theorem foldl_difference_eq_zero (pairs : List (UInt8 × UInt8)) (acc : UInt8) :
    pairs.foldl (fun difference b => difference ||| (b.1 ^^^ b.2)) acc = 0 ↔
      acc = 0 ∧ ∀ b ∈ pairs, b.1 = b.2 := by
  induction pairs generalizing acc with
  | nil => simp
  | cons b pairs ih =>
    rw [List.foldl_cons, ih, UInt8.or_eq_zero_iff, UInt8.xor_eq_zero_iff, List.forall_mem_cons,
      and_assoc]

theorem tagsMatch_iff (left right : List UInt8) : tagsMatch left right = true ↔ left = right := by
  unfold tagsMatch
  split_ifs with hlen
  · exact iff_of_false (by simp) fun h => hlen (congrArg List.length h)
  · rw [decide_eq_true_eq, foldl_difference_eq_zero]
    have hlen : left.length = right.length := Decidable.not_not.mp hlen
    constructor
    · rintro ⟨-, hall⟩
      refine List.ext_getElem hlen fun i hi hi' => ?_
      exact hall _ (List.mem_iff_getElem.mpr ⟨i, by simp; omega, List.getElem_zip⟩)
    · rintro rfl
      refine ⟨rfl, fun b hb => ?_⟩
      obtain ⟨i, hi, rfl⟩ := List.mem_iff_getElem.mp hb
      rw [List.getElem_zip]

theorem take_four {buf rest : List UInt8} {n : ℕ}
    (h : Codec.readDigits 4 (buf.take 4).reverse = some (n, rest)) (hlen : 4 ≤ buf.length) :
    buf.take 4 = lengthBytes n := by
  obtain ⟨-, hdigits⟩ := Codec.digits_of_readDigits h
  have hrest : rest = [] := by
    have := congrArg List.length hdigits
    rw [List.length_reverse, List.length_take_of_le hlen, List.length_append,
      Codec.length_digits] at this
    exact List.length_eq_zero_iff.mp (by omega)
  rw [hrest, List.append_nil] at hdigits
  rw [lengthBytes, ← hdigits, List.reverse_reverse]

theorem readFrame_frame {limit : ℕ} {buf frame rest : List UInt8}
    (h : readFrame limit buf = .frame frame rest) :
    buf = lengthBytes frame.length ++ (frame ++ rest) := by
  unfold readFrame at h
  split at h
  · cases h
  · next hfour =>
    split at h
    · cases h
    · next n r hread =>
      split_ifs at h with hlimit hshort
      cases h
      have hn : ((buf.drop 4).take n).length = n := by
        rw [List.length_take, List.length_drop]
        omega
      rw [hn, ← take_four hread (by omega), ← List.drop_drop,
        List.take_append_drop, List.take_append_drop]

theorem readFrame_of_append {limit : ℕ} {buf more frame rest : List UInt8}
    (hlimit : limit < 2 ^ 32) (hframe : frame.length ≤ limit)
    (h : buf ++ more = lengthBytes frame.length ++ (frame ++ rest)) :
    if buf.length < 4 + frame.length then readFrame limit buf = .pending
    else ∃ rest', readFrame limit buf = .frame frame rest' ∧ rest' ++ more = rest := by
  unfold readFrame
  by_cases hfour : buf.length < 4
  · rw [if_pos (by omega), if_pos hfour]
  · have hread : Codec.readDigits 4 (buf.take 4).reverse = some (frame.length, []) := by
      have htake := congrArg (List.take 4) h
      rw [List.take_append_of_le_length (by omega), List.take_left' (length_lengthBytes _)] at htake
      have hdigits := Codec.readDigits_digits 4 frame.length (by omega) []
      rw [htake, lengthBytes, List.reverse_reverse]
      rwa [List.append_nil] at hdigits
    rw [if_neg hfour, hread]
    simp only [if_neg (Nat.not_lt.mpr hframe)]
    split_ifs with hshort
    · rfl
    · have hsplit : buf.take (4 + frame.length) = lengthBytes frame.length ++ frame ∧
          buf.drop (4 + frame.length) ++ more = rest := by
        refine List.append_inj ?_ ?_
        · rw [← List.append_assoc, List.take_append_drop, h, List.append_assoc]
        · rw [List.length_take_of_le (by omega), List.length_append, length_lengthBytes]
      refine ⟨buf.drop (4 + frame.length), ?_, hsplit.2⟩
      have hmiddle := hsplit.1
      rw [List.take_add] at hmiddle
      rw [(List.append_inj hmiddle (by rw [List.length_take_of_le (by omega)]; rfl)).2]

/-! ### What is received from any stream -/

def frameBytes (frame : List UInt8) : List UInt8 := lengthBytes frame.length ++ frame

theorem length_frameBytes (frame : List UInt8) : (frameBytes frame).length = 4 + frame.length :=
  List.length_append ..

theorem frameBytes_append (frame rest : List UInt8) :
    frameBytes frame ++ rest = lengthBytes frame.length ++ (frame ++ rest) :=
  List.append_assoc ..

/-- The ideal authenticator: a frame of the stream that verifies in its place, in either direction,
holds something that a holder of the key authenticated. -/
def Unforged (key stream : List UInt8) (authentic : Set (List UInt8)) : Prop :=
  ∀ (done : List (List UInt8)) (payload rest : List UInt8) (direction : UInt8),
    stream = done.flatMap frameBytes ++
      (frameBytes (payload ++ tag B key direction done.length payload) ++ rest) →
    tagInput direction done.length payload ∈ authentic

theorem tagInput_inj {direction direction' : UInt8} {n n' : ℕ} {payload payload' : List UInt8}
    (hn : n < 2 ^ 64) (hn' : n' < 2 ^ 64)
    (h : tagInput direction n payload = tagInput direction' n' payload') :
    direction = direction' ∧ n = n' ∧ payload = payload' := by
  obtain ⟨hdirection, hrest⟩ := List.cons.inj h
  exact ⟨hdirection, Delimits.digits 8 hn hn' hrest⟩

namespace AuthCodec

variable {B} {c c' : AuthCodec} {key : List UInt8} {me : Role} {n : ℕ}

/-- The codec of one end of a connection that has accepted `n` frames. -/
def Accepted (key : List UInt8) (me : Role) (n : ℕ) (c : AuthCodec) : Prop :=
  ∃ sent, c.session = some ⟨key, me, sent, n⟩

theorem accepted_authenticated : Accepted key me 0 (authenticated key me) := ⟨0, rfl⟩

theorem decode_eq_frame {src payload rest : List UInt8} (hc : Accepted key me n c)
    (h : c.decode B src = .frame payload c' rest) :
    src = frameBytes (payload ++ tag B key me.recvDirection n payload) ++ rest ∧
      n + 1 < 2 ^ 64 ∧ Accepted key me (n + 1) c' := by
  obtain ⟨sent, hs⟩ := hc
  unfold decode at h
  split at h
  · cases h
  · cases h
  · next frame rest' hread =>
    simp only [hs] at h
    split_ifs at h with hshort htag hcount
    cases h
    have hframe : frame.take (frame.length - tagLen) ++
        tag B key me.recvDirection n (frame.take (frame.length - tagLen)) = frame := by
      rw [← (tagsMatch_iff _ _).mp htag, List.take_append_drop]
    rw [hframe, frameBytes_append]
    exact ⟨readFrame_frame hread, hcount, sent, rfl⟩

/-- The receiver has taken `n` frames off the stream and holds what follows them. -/
def Receives (key : List UInt8) (me : Role) (stream after : List UInt8) (n : ℕ) (c : AuthCodec)
    (src : List UInt8) : Prop :=
  Accepted key me n c ∧
    ∃ done : List (List UInt8), done.length = n ∧ stream = done.flatMap frameBytes ++ (src ++ after)

section Prefix

variable {stream after src : List UInt8} {authentic : Set (List UInt8)} {sent : List (List UInt8)}
  (hforged : Unforged B key stream authentic)
  (hsent : ∀ i payload, i + 1 < 2 ^ 64 → tagInput me.recvDirection i payload ∈ authentic →
    sent[i]? = some payload)

include hforged hsent

theorem Receives.decode {payload rest : List UInt8} (hc : Receives key me stream after n c src)
    (h : c.decode B src = .frame payload c' rest) :
    sent[n]? = some payload ∧ Receives key me stream after (n + 1) c' rest := by
  obtain ⟨haccepted, done, hlen, hstream⟩ := hc
  obtain ⟨hsrc, hcount, haccepted'⟩ := decode_eq_frame haccepted h
  rw [hsrc, List.append_assoc] at hstream
  subst hlen
  refine ⟨hsent _ _ hcount (hforged done payload _ _ hstream), haccepted',
    done ++ [payload ++ tag B key me.recvDirection done.length payload], by simp, ?_⟩
  rw [List.flatMap_append, List.flatMap_singleton, List.append_assoc]
  exact hstream

theorem Receives.drain (fuel : ℕ) (hc : Receives key me stream after n c src) :
    (c.drain B fuel src).1 ++ sent.drop (n + (c.drain B fuel src).1.length) = sent.drop n ∧
      ∀ c' src', (c.drain B fuel src).2 = some (c', src') →
        Receives key me stream after (n + (c.drain B fuel src).1.length) c' src' := by
  induction fuel generalizing n c src with
  | zero =>
    refine ⟨rfl, ?_⟩
    rintro _ _ ⟨⟩
    exact hc
  | succ fuel ih =>
    rw [AuthCodec.drain]
    split
    · refine ⟨rfl, ?_⟩
      rintro _ _ ⟨⟩
      exact hc
    · exact ⟨rfl, fun _ _ h => by cases h⟩
    · next payload c' rest hdecode =>
      obtain ⟨hpayload, hc'⟩ := hc.decode hforged hsent hdecode
      obtain ⟨hyield, hstate⟩ := ih hc'
      have hcount : ∀ l : List (List UInt8), n + (payload :: l).length = n + 1 + l.length := by
        intro l
        rw [List.length_cons]
        omega
      simp only [hcount]
      refine ⟨?_, hstate⟩
      obtain ⟨hlt, hget⟩ := List.getElem?_eq_some_iff.mp hpayload
      rw [List.cons_append, hyield, List.drop_eq_getElem_cons hlt, hget]

theorem Receives.run {chunks : List (List UInt8)} {buf : List UInt8}
    (hc : Receives key me stream chunks.flatten n c buf) :
    (c.run B buf chunks).1 <+: sent.drop n := by
  induction chunks generalizing n c buf with
  | nil => exact List.nil_prefix
  | cons chunk chunks ih =>
    rw [AuthCodec.run]
    have hc' : Receives key me stream chunks.flatten n c (buf ++ chunk) := by
      obtain ⟨haccepted, done, hlen, hstream⟩ := hc
      refine ⟨haccepted, done, hlen, ?_⟩
      rw [hstream, List.flatten_cons, List.append_assoc]
    obtain ⟨hyield, hstate⟩ := hc'.drain hforged hsent (buf ++ chunk).length
    rw [← hyield]
    split
    · exact List.prefix_append _ _
    · next c' buf' hnext => exact (List.prefix_append_right_inj _).mpr (ih (hstate c' buf' hnext))

end Prefix

/-! ### What is received from the sender's stream -/

/-- The frames of some payloads, numbered from `n` on. -/
def honestBytes (B : KeyedHash) (key : List UInt8) (role : Role) :
    ℕ → List (List UInt8) → List UInt8
  | _, [] => []
  | n, payload :: payloads =>
    frameBytes (payload ++ tag B key role.sendDirection n payload) ++
      honestBytes B key role (n + 1) payloads

def within (limit : ℕ) (payloads : List (List UInt8)) : List (List UInt8) :=
  payloads.filter fun payload => decide (payload.length ≤ limit)

theorem encodeAll_eq {sent received : ℕ} {payloads : List (List UInt8)} {wire : List UInt8}
    (hc : c.session = some ⟨key, me, sent, received⟩) (hsent : sent < 2 ^ 64)
    (h : c.encodeAll B payloads = some wire) :
    wire = honestBytes B key me sent (within c.payloadLimit payloads) ∧
      sent + (within c.payloadLimit payloads).length < 2 ^ 64 := by
  induction payloads generalizing c sent wire with
  | nil =>
    cases h
    exact ⟨rfl, hsent⟩
  | cons payload payloads ih =>
    rw [encodeAll, encode, hc] at h
    by_cases hlong : c.payloadLimit < payload.length
    · rw [within, List.filter_cons_of_neg (by simpa using hlong)]
      simp only [if_pos hlong] at h
      exact ih hc hsent h
    · rw [within, List.filter_cons_of_pos (by simpa using hlong)]
      simp only [if_neg hlong] at h
      split_ifs at h with hcount
      · simp only [Option.map_eq_some_iff] at h
        obtain ⟨rest, hrest, rfl⟩ := h
        obtain ⟨hwire, hlen⟩ := ih rfl hcount hrest
        refine ⟨?_, ?_⟩
        · rw [honestBytes, hwire, frameBytes, List.length_append, length_tag, List.append_assoc]
          rfl
        · rw [List.length_cons]
          simp only [within] at hlen
          omega

/-- What is left of the sender's stream, in the buffer and to come. -/
structure Honest (B : KeyedHash) (key : List UInt8) (me : Role) (after : List UInt8) (n : ℕ)
    (payloads : List (List UInt8)) (c : AuthCodec) (buf : List UInt8) : Prop where
  accepted : Accepted key me n c
  limit : c.payloadLimit + tagLen < 2 ^ 32
  short : ∀ payload ∈ payloads, payload.length ≤ c.payloadLimit
  count : n + payloads.length < 2 ^ 64
  bytes : buf ++ after = honestBytes B key me.peer n payloads

section Honest

variable {after buf : List UInt8} {payloads : List (List UInt8)}

theorem Honest.decode {payload : List UInt8}
    (h : Honest B key me after n (payload :: payloads) c buf) :
    if buf.length < 4 + (payload.length + tagLen) then c.decode B buf = .pending
    else ∃ c' buf', c.decode B buf = .frame payload c' buf' ∧
      Honest B key me after (n + 1) payloads c' buf' ∧ buf'.length < buf.length := by
  obtain ⟨sent, hs⟩ := h.accepted
  have hbytes := h.bytes
  obtain ⟨frame, hframe⟩ : ∃ frame, frame = payload ++ tag B key me.recvDirection n payload :=
    ⟨_, rfl⟩
  have hlen : frame.length = payload.length + tagLen := by
    rw [hframe, List.length_append, length_tag]
  have htake : frame.take (frame.length - tagLen) = payload := by
    rw [hlen, Nat.add_sub_cancel, hframe, List.take_left]
  have hdrop : frame.drop (frame.length - tagLen) = tag B key me.recvDirection n payload := by
    rw [hlen, Nat.add_sub_cancel, hframe, List.drop_left]
  have hlimit : c.frameLimit = c.payloadLimit + tagLen := by rw [frameLimit, hs]
  have hcount := h.count
  have hshort := h.short payload (List.mem_cons_self ..)
  have hfits : frame.length ≤ c.frameLimit := by omega
  rw [honestBytes, ← me.recvDirection_eq, ← hframe, frameBytes_append] at hbytes
  have hread := readFrame_of_append (hlimit ▸ h.limit) hfits hbytes
  rw [← hlen]
  unfold AuthCodec.decode
  by_cases hpart : buf.length < 4 + frame.length
  · rw [if_pos hpart] at hread
    rw [if_pos hpart, hread]
  · rw [if_neg hpart] at hread
    obtain ⟨rest, hread, hrest⟩ := hread
    have hbuf := congrArg List.length (readFrame_frame hread)
    rw [List.length_append, List.length_append, length_lengthBytes] at hbuf
    have hmatch : tagsMatch (tag B key me.recvDirection n payload)
        (tag B key me.recvDirection n payload) = true := (tagsMatch_iff _ _).mpr rfl
    rw [List.length_cons] at hcount
    rw [if_neg hpart, hread]
    simp only [hs, if_neg (show ¬frame.length < tagLen by omega), htake, hdrop, hmatch, if_true,
      if_pos (show n + 1 < 2 ^ 64 by omega)]
    refine ⟨_, rest, rfl, ⟨⟨sent, rfl⟩, h.limit, fun p hp => h.short p (List.mem_cons_of_mem _ hp),
      by omega, hrest⟩, by omega⟩

theorem Honest.nil (h : Honest B key me after n [] c buf) : buf = [] ∧ after = [] :=
  List.append_eq_nil_iff.mp h.bytes

theorem Honest.drain {fuel : ℕ} (h : Honest B key me after n payloads c buf)
    (hfuel : buf.length ≤ fuel) :
    ∃ k c' buf', c.drain B fuel buf = (payloads.take k, some (c', buf')) ∧
      Honest B key me after (n + k) (payloads.drop k) c' buf' ∧ c'.decode B buf' = .pending := by
  induction fuel generalizing n payloads c buf with
  | zero =>
    obtain rfl : buf = [] := List.length_eq_zero_iff.mp (Nat.le_zero.mp hfuel)
    exact ⟨0, c, [], rfl, h, rfl⟩
  | succ fuel ih =>
    cases payloads with
    | nil =>
      obtain ⟨rfl, -⟩ := h.nil
      exact ⟨0, c, [], rfl, h, rfl⟩
    | cons payload payloads =>
      have hnext := h.decode
      by_cases hpart : buf.length < 4 + (payload.length + tagLen)
      · rw [if_pos hpart] at hnext
        refine ⟨0, c, buf, ?_, h, hnext⟩
        rw [AuthCodec.drain, hnext]
        rfl
      · rw [if_neg hpart] at hnext
        obtain ⟨c₁, buf₁, hdecode, hc₁, hless⟩ := hnext
        obtain ⟨k, c', buf', hdrain, hc', hpending⟩ := ih hc₁ (by omega)
        refine ⟨k + 1, c', buf', ?_, ?_, hpending⟩
        · rw [AuthCodec.drain, hdecode]
          simp only [hdrain, List.take_succ_cons]
        · rw [Nat.add_right_comm] at hc'
          exact hc'

theorem Honest.run {chunks : List (List UInt8)}
    (h : Honest B key me chunks.flatten n payloads c buf) (hpending : c.decode B buf = .pending) :
    ∃ c', c.run B buf chunks = (payloads, some (c', [])) := by
  induction chunks generalizing n payloads c buf with
  | nil =>
    cases payloads with
    | nil =>
      obtain ⟨rfl, -⟩ := h.nil
      exact ⟨c, rfl⟩
    | cons payload payloads =>
      have hbytes := congrArg List.length h.bytes
      have hnext := h.decode
      rw [List.flatten_nil, List.append_nil, honestBytes, frameBytes] at hbytes
      simp only [List.length_append, length_lengthBytes, length_tag] at hbytes
      rw [if_neg (by omega), hpending] at hnext
      obtain ⟨_, _, hframe, -⟩ := hnext
      cases hframe
  | cons chunk chunks ih =>
    have h' : Honest B key me chunks.flatten n payloads c (buf ++ chunk) :=
      { h with bytes := by rw [List.append_assoc]; exact h.bytes }
    obtain ⟨k, c', buf', hdrain, hnext, hpending'⟩ := h'.drain le_rfl
    obtain ⟨c'', hrun⟩ := ih hnext hpending'
    refine ⟨c'', ?_⟩
    rw [AuthCodec.run]
    simp only [hdrain, hrun, List.take_append_drop]

end Honest

end AuthCodec

/-! ### Connections -/

/-- A connection: the salts of its hello exchange, and the payloads that each end tried to send. -/
structure Connection where
  dialerSalt : List UInt8
  listenerSalt : List UInt8
  sent : Role → List (List UInt8)
  dialerSalt_length : dialerSalt.length = 16
  listenerSalt_length : listenerSalt.length = 16

namespace Connection

def key (B : KeyedHash) (root : List UInt8) (c : Connection) : List UInt8 :=
  channelSessionKey B root c.dialerSalt c.listenerSalt

def salt (c : Connection) : Role → List UInt8
  | .dialer => c.dialerSalt
  | .listener => c.listenerSalt

def codec (B : KeyedHash) (root : List UInt8) (c : Connection) (role : Role) : AuthCodec :=
  .authenticated (handshakeKey B root role (c.salt role) (c.salt role.peer)) role

theorem codec_eq (B : KeyedHash) (root : List UInt8) (c : Connection) (role : Role) :
    c.codec B root role = .authenticated (c.key B root) role := by
  cases role <;> rfl

def encoded (c : Connection) (role : Role) : List (List UInt8) :=
  AuthCodec.within maxFrameLength (c.sent role)

/-- What the ends of the connections under a key authenticated with it. -/
def authenticated (B : KeyedHash) (root : List UInt8) (connections : Set Connection)
    (key : List UInt8) : Set (List UInt8) :=
  {input | ∃ c ∈ connections, c.key B root = key ∧ ∃ role i payload,
    (c.encoded role)[i]? = some payload ∧ input = tagInput role.sendDirection i payload}

end Connection

/-- On connections between two members that differ in their salts, an end receives from any stream
in any chunks a part of what its peer encoded, from the start on, if no tag is forged; and all of it
from the stream of its peer. -/
theorem channel_delivers (root : List UInt8) (connections : Set Connection)
    (hkeys : Set.InjOn (B.hash root)
      {salts | ∃ c ∈ connections, salts = c.dialerSalt ++ c.listenerSalt})
    (hfresh : ∀ c ∈ connections, ∀ c' ∈ connections, c.dialerSalt = c'.dialerSalt →
      c.listenerSalt = c'.listenerSalt → c = c')
    (c : Connection) (hc : c ∈ connections) (me : Role) (wire : List UInt8)
    (hwire : (c.codec B root me.peer).encodeAll B (c.sent me.peer) = some wire)
    (chunks : List (List UInt8)) :
    (Unforged B (c.key B root) chunks.flatten
        (Connection.authenticated B root connections (c.key B root)) →
      ((c.codec B root me).run B [] chunks).1 <+: c.encoded me.peer) ∧
    (chunks.flatten = wire → ∃ codec, (c.codec B root me).run B [] chunks =
      (c.encoded me.peer, some (codec, []))) := by
  rw [c.codec_eq] at hwire
  rw [c.codec_eq]
  obtain ⟨hbytes, hcount⟩ := AuthCodec.encodeAll_eq rfl (by decide) hwire
  rw [Nat.zero_add] at hcount
  refine ⟨fun hforged => ?_, fun hstream => ?_⟩
  · have hsent : ∀ i payload, i + 1 < 2 ^ 64 → tagInput me.recvDirection i payload ∈
        Connection.authenticated B root connections (c.key B root) →
          (c.encoded me.peer)[i]? = some payload := by
      rintro i payload hi ⟨c', hc', hkey, role, j, payload', hj, hinput⟩
      have hsalts := hkeys ⟨c', hc', rfl⟩ ⟨c, hc, rfl⟩ hkey
      obtain ⟨hd, hl⟩ := List.append_inj hsalts
        (c'.dialerSalt_length.trans c.dialerSalt_length.symm)
      obtain rfl := hfresh c' hc' c hc hd hl
      -- The direction tells the peer's frames from those of this end.
      have hrole : role = me.peer := by
        have hhead := List.head_eq_of_cons_eq hinput
        rw [me.recvDirection_eq] at hhead
        exact (Role.sendDirection_injective hhead).symm
      subst hrole
      have hjlt := (List.getElem?_eq_some_iff.mp hj).1
      have hcount' : (c'.encoded me.peer).length < 2 ^ 64 := hcount
      obtain ⟨-, rfl, rfl⟩ := tagInput_inj (by omega) (by omega) hinput
      exact hj
    have hstart : AuthCodec.Receives (c.key B root) me chunks.flatten chunks.flatten 0
        (AuthCodec.authenticated (c.key B root) me) [] :=
      ⟨AuthCodec.accepted_authenticated, [], rfl, rfl⟩
    exact hstart.run hforged hsent
  · have hlimit : maxFrameLength + tagLen < 2 ^ 32 := by decide
    refine AuthCodec.Honest.run ⟨AuthCodec.accepted_authenticated, hlimit,
      fun p hp => of_decide_eq_true (List.mem_filter.mp hp).2, ?_, ?_⟩ rfl
    · rw [Nat.zero_add]
      exact hcount
    · rw [List.nil_append, hstream]
      exact hbytes

def showing : KeyedHash where
  hash _ message := (message ++ List.replicate 32 0).take 32
  length_hash _ message := by
    rw [List.length_take_of_le (by rw [List.length_append, List.length_replicate]; omega)]

def oneSent : Connection where
  dialerSalt := List.replicate 16 1
  listenerSalt := List.replicate 16 2
  sent role := if role = .dialer then [[5]] else []
  dialerSalt_length := rfl
  listenerSalt_length := rfl

theorem frameBytes_delimits : Delimits frameBytes {frame | frame.length < 2 ^ 32} := by
  intro f hf g hg x y h
  rw [frameBytes_append, frameBytes_append] at h
  obtain ⟨hlen, hrest⟩ := List.append_inj h rfl
  have hdigits := Delimits.digits 4 hf hg (x := []) (y := [])
    (by rw [List.append_nil, List.append_nil, ← List.reverse_inj]; exact hlen)
  obtain ⟨hframe, hxy⟩ := List.append_inj hrest hdigits.1
  exact ⟨hframe, hxy⟩

theorem oneSent_unforged : Unforged showing (oneSent.key showing [])
    (frameBytes ([5] ++ tag showing (oneSent.key showing []) 0 0 [5]))
    (Connection.authenticated showing [] {oneSent} (oneSent.key showing [])) := by
  intro done payload rest direction h
  have hfirst : ∀ frame more : List UInt8,
      frameBytes ([5] ++ tag showing (oneSent.key showing []) 0 0 [5]) = frameBytes frame ++ more →
        [5] ++ tag showing (oneSent.key showing []) 0 0 [5] = frame ∧ [] = more := by
    intro frame more hframe
    have hlength := congrArg List.length hframe
    rw [List.length_append, length_frameBytes, length_frameBytes, List.length_append,
      length_tag] at hlength
    simp only [tagLen, List.length_singleton] at hlength
    refine frameBytes_delimits (by decide +kernel) ?_ (by rw [List.append_nil]; exact hframe)
    exact (by omega : frame.length < 2 ^ 32)
  cases done with
  | nil =>
    obtain ⟨hframe, -⟩ := hfirst _ _ h
    obtain ⟨rfl, htag⟩ := List.append_inj' hframe (by rw [length_tag, length_tag])
    obtain rfl : 0 = direction := List.head_eq_of_cons_eq htag
    exact ⟨oneSent, rfl, rfl, .dialer, 0, [5], by decide +kernel, rfl⟩
  | cons frame done =>
    rw [List.flatMap_cons, List.append_assoc] at h
    have hnil := congrArg List.length (hfirst _ _ h).2
    rw [List.length_append, List.length_append, length_frameBytes, List.length_nil] at hnil
    omega

theorem channel_delivers_oneSent :
    ∃ wire, (oneSent.codec showing [] .dialer).encodeAll showing [[5]] = some wire ∧
      ((oneSent.codec showing [] .listener).run showing []
        [wire.take 3, wire.drop 3]).1 <+: oneSent.encoded .dialer := by
  have hflat : ∀ wire : List UInt8, [wire.take 3, wire.drop 3].flatten = wire := by simp
  refine ⟨frameBytes ([5] ++ tag showing (oneSent.key showing []) 0 0 [5]), by decide +kernel, ?_⟩
  have hwire : (oneSent.codec showing [] .dialer).encodeAll showing (oneSent.sent .dialer) =
        some (frameBytes ([5] ++ tag showing (oneSent.key showing []) 0 0 [5])) := by decide +kernel
  refine (channel_delivers showing [] {oneSent} (by simp [Set.InjOn]) (by simp) oneSent rfl
    .listener _ hwire _).1 ?_
  rw [hflat]
  exact oneSent_unforged

end Vantage.Network
