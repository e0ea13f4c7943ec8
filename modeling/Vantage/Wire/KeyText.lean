import Vantage.Lib.Codec

/-!
# Keys as text

Keys are written in Base64, in configuration files and in legacy frames.  The text of a key is
decoded to bytes of any number, of which `PublicKey::decode_base64` and `SecretKey::decode_base64`
slice off as many as the key has; `decode_base64_key` converts all of them.

* `Base64`: the standard codec, one text per byte string;
* `decodeBase64`, `decodeBase64Key`: the two ways to a key; `deserializeKey`: a key in a frame;
* `decodeBase64Key_exact`: the conversion accepts the text of a key and nothing else;
* `key_text_exact`: so does the slice, exactly on texts that do not stand for bytes of another
  number;
* `standard`: the codec with the alphabet of the standard.
-/

namespace Vantage.KeyText

/-- How a call can end: with a value, with an error, or not at all because it panics. -/
inductive Outcome (ε α : Type)
  | ok (a : α)
  | err (e : ε)
  | panicked
  deriving DecidableEq

/-- The call returns with an error. -/
def Outcome.isErr {ε α : Type} : Outcome ε α → Prop
  | .err _ => True
  | _ => False

/-- The result of reading a value, with what follows it; the kind of an error is lost. -/
def Outcome.followedBy {ε α : Type} (rest : List UInt8) :
    Outcome ε α → Outcome Unit (α × List UInt8)
  | .ok a => .ok (a, rest)
  | .err _ => .err ()
  | .panicked => .panicked

/-- The standard codec: a text stands for the bytes that it is the text of, or for none. -/
structure Base64 where
  encode : List UInt8 → List UInt8
  decode : List UInt8 → Option (List UInt8)
  decode_eq_some : ∀ text bytes, decode text = some bytes ↔ encode bytes = text

/-- The errors of the decoder that the three functions tell apart. -/
inductive DecodeError
  | malformed
  | invalidLength (length : ℕ)
  deriving DecidableEq

/-- A key of `n` bytes. -/
abbrev Key (n : ℕ) : Type := {bytes : List UInt8 // bytes.length = n}

variable (B : Base64)

/-- The text of a key: `encode_base64`. -/
def encodeBase64 {n : ℕ} (k : Key n) : List UInt8 := B.encode k.1

/-- Slicing off the first `n` bytes panics when there are fewer; the slice always fits the array. -/
def decodeBase64 (n : ℕ) (text : List UInt8) : Outcome DecodeError (Key n) :=
  match B.decode text with
  | none => .err .malformed
  | some bytes =>
    if h : n ≤ bytes.length then .ok ⟨bytes.take n, List.length_take_of_le h⟩ else .panicked

/-- A public key, `[u8; 32]`. -/
abbrev PublicKey : Type := Key 32

/-- A secret key, `[u8; 64]`. -/
abbrev SecretKey : Type := Key 64

/-- `PublicKey::decode_base64`, which slices off 32 bytes. -/
def PublicKey.decodeBase64 (text : List UInt8) : Outcome DecodeError PublicKey :=
  KeyText.decodeBase64 B 32 text

/-- `SecretKey::decode_base64`, which slices off 64 bytes. -/
def SecretKey.decodeBase64 (text : List UInt8) : Outcome DecodeError SecretKey :=
  KeyText.decodeBase64 B 64 text

/-- The conversion of all bytes, as for the key material of a configuration file. -/
def decodeBase64Key (text : List UInt8) : Outcome DecodeError (Key 32) :=
  match B.decode text with
  | none => .err .malformed
  | some bytes =>
    if h : bytes.length = 32 then .ok ⟨bytes, h⟩ else .err (.invalidLength bytes.length)

/-- Strings in a frame: their length in eight bytes, then the bytes. -/
def texts : Codec (List UInt8) := Codec.byte.list .u64

/-- A public key read from a legacy frame, outside every scope of the compact encoding. -/
def deserializeKey (frame : List UInt8) : Outcome Unit (PublicKey × List UInt8) :=
  match texts.decode frame with
  | none => .err ()
  | some (text, rest) => (PublicKey.decodeBase64 B text).followedBy rest

/-! ### What is accepted -/

variable {B} {n : ℕ} {text : List UInt8}

theorem Base64.decode_encode (bytes : List UInt8) : B.decode (B.encode bytes) = some bytes :=
  (B.decode_eq_some _ _).mpr rfl

/-- The conversion accepts the text of a key, and is an error for every other text. -/
theorem decodeBase64Key_exact (k : Key 32) :
    (decodeBase64Key B text = .ok k ↔ text = encodeBase64 B k) ∧
      ((∀ k : Key 32, text ≠ encodeBase64 B k) → (decodeBase64Key B text).isErr) := by
  unfold decodeBase64Key encodeBase64
  cases hd : B.decode text with
  | none =>
    refine ⟨iff_of_false (by simp) ?_, fun _ => trivial⟩
    rintro rfl
    rw [Base64.decode_encode] at hd
    cases hd
  | some bytes =>
    obtain rfl := (B.decode_eq_some _ _).mp hd
    by_cases hlen : bytes.length = 32
    · simp only [dif_pos hlen]
      refine ⟨⟨?_, fun h => ?_⟩, fun hno => absurd rfl (hno ⟨bytes, hlen⟩)⟩
      · rintro ⟨⟩
        rfl
      · rw [h, Base64.decode_encode, Option.some.injEq] at hd
        exact congrArg Outcome.ok (Subtype.ext hd.symm)
    · simp only [dif_neg hlen]
      refine ⟨iff_of_false (by simp) fun h => hlen ?_, fun _ => trivial⟩
      rw [h, Base64.decode_encode, Option.some.injEq] at hd
      rw [← hd, k.2]

theorem decodeBase64_short {bytes : List UInt8} (h : bytes.length < n) :
    decodeBase64 B n (B.encode bytes) = .panicked := by
  rw [decodeBase64, Base64.decode_encode]
  exact dif_neg (Nat.not_le.mpr h)

theorem decodeBase64_long (k : Key n) (more : List UInt8) :
    decodeBase64 B n (B.encode (k.1 ++ more)) = .ok k := by
  have hle : n ≤ (k.1 ++ more).length := by
    rw [List.length_append, k.2]
    exact Nat.le_add_right n more.length
  rw [decodeBase64, Base64.decode_encode]
  simp only [dif_pos hle]
  exact congrArg Outcome.ok (Subtype.ext (List.take_left' k.2))

/-- The text stands for no byte string of a wrong length. -/
def FitsKey (B : Base64) (n : ℕ) (text : List UInt8) : Prop :=
  ∀ bytes, B.decode text = some bytes → bytes.length = n

/-- The decoder gives a key for the text of that key only, and an error for a text of no key. -/
def ExactOn (B : Base64) {ε α : Type} {n : ℕ} (text : List UInt8) (accept : Key n → α)
    (result : Outcome ε α) : Prop :=
  (∀ k, result = .ok (accept k) ↔ text = encodeBase64 B k) ∧
    ((∀ k : Key n, text ≠ encodeBase64 B k) → result.isErr)

theorem decodeBase64_of_fitsKey (h : FitsKey B n text) (k : Key n) :
    decodeBase64 B n text = .ok k ↔ text = encodeBase64 B k := by
  unfold decodeBase64 encodeBase64
  constructor
  · intro hok
    cases hd : B.decode text with
    | none =>
      rw [hd] at hok
      cases hok
    | some bytes =>
      have hlen := h bytes hd
      rw [hd] at hok
      simp only [dif_pos hlen.ge, Outcome.ok.injEq] at hok
      rw [← hok]
      simp only [List.take_of_length_le hlen.le]
      exact ((B.decode_eq_some _ _).mp hd).symm
  · rintro rfl
    have := decodeBase64_long (B := B) k []
    rwa [List.append_nil] at this

theorem isErr_of_fitsKey (h : FitsKey B n text) (hno : ∀ k : Key n, text ≠ encodeBase64 B k) :
    (decodeBase64 B n text).isErr := by
  cases hd : decodeBase64 B n text with
  | ok k => exact absurd ((decodeBase64_of_fitsKey h k).mp hd) (hno k)
  | err e => trivial
  | panicked =>
    unfold decodeBase64 at hd
    split at hd
    · cases hd
    · next bytes hbytes =>
      rw [dif_pos (h bytes hbytes).ge] at hd
      cases hd

/-- Bytes of another number than the key has are not the bytes of a key. -/
theorem encode_ne_encodeBase64 {bytes : List UInt8} (hlen : bytes.length ≠ n) (k : Key n) :
    B.encode bytes ≠ encodeBase64 B k := by
  intro heq
  have hbytes := Base64.decode_encode (B := B) bytes
  rw [heq, encodeBase64, Base64.decode_encode, Option.some.injEq] at hbytes
  exact hlen (hbytes ▸ k.2)

/-- A text of too few bytes makes the slice panic, and one of too many is taken for the key of
the first of them; so the decoder is exact on the texts that stand for no such bytes. -/
theorem decodeBase64_exactOn_iff :
    ExactOn B text id (decodeBase64 B n text) ↔ FitsKey B n text := by
  constructor
  · intro ⟨hok, herr⟩ bytes hd
    obtain rfl := (B.decode_eq_some _ _).mp hd
    by_contra hlen
    rcases Nat.lt_or_gt_of_ne hlen with hlt | hgt
    · have hpanic := herr (encode_ne_encodeBase64 hlen)
      rw [decodeBase64_short hlt] at hpanic
      exact hpanic
    · -- the text stands for a key and some more bytes, and is read as that key
      let k : Key n := ⟨bytes.take n, List.length_take_of_le hgt.le⟩
      have hread := decodeBase64_long (B := B) k (bytes.drop n)
      rw [List.take_append_drop] at hread
      exact encode_ne_encodeBase64 hlen k ((hok k).mp hread)
  · exact fun h => ⟨decodeBase64_of_fitsKey h, isErr_of_fitsKey h⟩

theorem exactOn_followedBy (rest : List UInt8) (result : Outcome DecodeError (Key n)) :
    ExactOn B text (fun k => (k, rest)) (result.followedBy rest) ↔ ExactOn B text id result := by
  cases result <;> simp [ExactOn, Outcome.followedBy, Outcome.isErr]

theorem deserializeKey_exactOn_iff {frame rest : List UInt8}
    (hread : texts.decode frame = some (text, rest)) :
    ExactOn B text (fun k => (k, rest)) (deserializeKey B frame) ↔ FitsKey B 32 text := by
  have heq : deserializeKey B frame = (decodeBase64 B 32 text).followedBy rest := by
    rw [deserializeKey, hread]
    rfl
  rw [heq, exactOn_followedBy, decodeBase64_exactOn_iff]

/-- For both kinds of keys, and for a key in a frame: a text decodes to the key it is the text of,
and is an error if it is the text of none, exactly when it does not stand for bytes of another
number than the key has. -/
theorem key_text_exact (B : Base64) (text : List UInt8) :
    (ExactOn B text id (PublicKey.decodeBase64 B text) ↔ FitsKey B 32 text) ∧
    (ExactOn B text id (SecretKey.decodeBase64 B text) ↔ FitsKey B 64 text) ∧
    ∀ frame rest, texts.decode frame = some (text, rest) →
      (ExactOn B text (fun k : PublicKey => (k, rest)) (deserializeKey B frame) ↔
        FitsKey B 32 text) :=
  ⟨decodeBase64_exactOn_iff, decodeBase64_exactOn_iff,
    fun _ _ hread => deserializeKey_exactOn_iff hread⟩

/-! ### The standard alphabet -/

/-- The character of a six-bit number. -/
def sextet (n : ℕ) : UInt8 :=
  UInt8.ofNat (if n < 26 then 65 + n else if n < 52 then 71 + n else if n < 62 then n - 4 else
    if n = 62 then 43 else 47)

/-- The six-bit number of a character; 64 for a character outside the alphabet. -/
def unsextet (c : UInt8) : ℕ := (List.range 64).findIdx fun n => sextet n = c

theorem unsextet_sextet {n : ℕ} (h : n < 64) : unsextet (sextet n) = n := by
  have hall : ∀ n < 64, unsextet (sextet n) = n := by decide +kernel
  exact hall n h

theorem sextet_ne_pad {n : ℕ} (h : n < 64) : sextet n ≠ 61 := by
  have hall : ∀ n < 64, sextet n ≠ 61 := by decide +kernel
  exact hall n h

/-- Three bytes in four characters; what is missing at the end is padded. -/
def encodeStandard : List UInt8 → List UInt8
  | [] => []
  | [a] => [sextet (a.toNat / 4), sextet (a.toNat % 4 * 16), 61, 61]
  | [a, b] => [sextet (a.toNat / 4), sextet (a.toNat % 4 * 16 + b.toNat / 16),
      sextet (b.toNat % 16 * 4), 61]
  | a :: b :: c :: rest => sextet (a.toNat / 4) :: sextet (a.toNat % 4 * 16 + b.toNat / 16) ::
      sextet (b.toNat % 16 * 4 + c.toNat / 64) :: sextet (c.toNat % 64) :: encodeStandard rest

/-- The three bytes of four six-bit numbers. -/
def decodeGroup (w x y z : ℕ) : List UInt8 :=
  [UInt8.ofNat (w * 4 + x / 16), UInt8.ofNat (x % 16 * 16 + y / 4), UInt8.ofNat (y % 4 * 64 + z)]

/-- The bytes of a text, group by group; only meaningful on texts of byte strings. -/
def decodeStandard : List UInt8 → List UInt8
  | w :: x :: y :: z :: rest =>
    if y = 61 then (decodeGroup (unsextet w) (unsextet x) 0 0).take 1
    else if z = 61 then (decodeGroup (unsextet w) (unsextet x) (unsextet y) 0).take 2
    else decodeGroup (unsextet w) (unsextet x) (unsextet y) (unsextet z) ++ decodeStandard rest
  | _ => []

theorem decodeGroup_bytes (a b c : UInt8) :
    decodeGroup (a.toNat / 4) (a.toNat % 4 * 16 + b.toNat / 16) (b.toNat % 16 * 4 + c.toNat / 64)
      (c.toNat % 64) = [a, b, c] := by
  have ha := a.toNat_lt
  have hb := b.toNat_lt
  have hc := c.toNat_lt
  have hfirst : a.toNat / 4 * 4 + (a.toNat % 4 * 16 + b.toNat / 16) / 16 = a.toNat := by omega
  have hsecond : (a.toNat % 4 * 16 + b.toNat / 16) % 16 * 16 +
      (b.toNat % 16 * 4 + c.toNat / 64) / 4 = b.toNat := by omega
  have hthird : (b.toNat % 16 * 4 + c.toNat / 64) % 4 * 64 + c.toNat % 64 = c.toNat := by omega
  rw [decodeGroup, hfirst, hsecond, hthird, UInt8.ofNat_toNat, UInt8.ofNat_toNat,
    UInt8.ofNat_toNat]

theorem decodeStandard_encodeStandard (bytes : List UInt8) :
    decodeStandard (encodeStandard bytes) = bytes := by
  induction bytes using encodeStandard.induct with
  | case1 => rfl
  | case2 a =>
    have ha := a.toNat_lt
    have hgroup := congrArg (List.take 1) (decodeGroup_bytes a 0 0)
    rw [encodeStandard, decodeStandard, if_pos rfl, unsextet_sextet (by omega),
      unsextet_sextet (by omega)]
    exact hgroup
  | case3 a b =>
    have ha := a.toNat_lt
    have hb := b.toNat_lt
    have hgroup := congrArg (List.take 2) (decodeGroup_bytes a b 0)
    rw [encodeStandard, decodeStandard, if_neg (sextet_ne_pad (by omega)), if_pos rfl,
      unsextet_sextet (by omega), unsextet_sextet (by omega), unsextet_sextet (by omega)]
    exact hgroup
  | case4 a b c rest ih =>
    have ha := a.toNat_lt
    have hb := b.toNat_lt
    have hc := c.toNat_lt
    rw [encodeStandard, decodeStandard, if_neg (sextet_ne_pad (by omega)),
      if_neg (sextet_ne_pad (by omega)), unsextet_sextet (by omega), unsextet_sextet (by omega),
      unsextet_sextet (by omega), unsextet_sextet (by omega), decodeGroup_bytes, ih]
    rfl

example : encodeStandard [77, 97, 110, 77] = [84, 87, 70, 117, 84, 81, 61, 61] := by decide +kernel

/-- The standard alphabet with padding; a text that no byte string has is malformed. -/
def standard : Base64 where
  encode := encodeStandard
  decode text :=
    if encodeStandard (decodeStandard text) = text then some (decodeStandard text) else none
  decode_eq_some text bytes := by
    split_ifs with h
    · refine ⟨fun heq => (Option.some.inj heq) ▸ h, ?_⟩
      rintro rfl
      rw [decodeStandard_encodeStandard]
    · refine iff_of_false nofun ?_
      rintro rfl
      rw [decodeStandard_encodeStandard] at h
      exact h rfl

theorem key_text_exact_standard :
    PublicKey.decodeBase64 standard (standard.encode (List.replicate 32 7)) =
      .ok ⟨List.replicate 32 7, List.length_replicate⟩ :=
  (((key_text_exact standard (standard.encode (List.replicate 32 7))).1.mpr (by
    intro bytes hbytes
    rw [Base64.decode_encode, Option.some.injEq] at hbytes
    rw [← hbytes]
    exact List.length_replicate)).1 _).mpr rfl

/-- The text of 31 bytes makes the decoder panic, and that of 63 bytes the decoder of secret keys;
that of 33 bytes is taken for the key of the first 32, though it is not its text. -/
theorem wrong_lengths :
    PublicKey.decodeBase64 standard (standard.encode (List.replicate 31 0)) = .panicked ∧
      SecretKey.decodeBase64 standard (standard.encode (List.replicate 63 0)) = .panicked ∧
      ∃ k : PublicKey, PublicKey.decodeBase64 standard (standard.encode (List.replicate 33 0)) =
          .ok k ∧ standard.encode (List.replicate 33 0) ≠ encodeBase64 standard k := by
  refine ⟨decodeBase64_short (by decide), decodeBase64_short (by decide),
    ⟨List.replicate 32 0, List.length_replicate⟩,
    decodeBase64_long ⟨List.replicate 32 0, List.length_replicate⟩ [0], fun h => ?_⟩
  have hbytes := Base64.decode_encode (B := standard) (List.replicate 33 0)
  rw [h, encodeBase64, Base64.decode_encode] at hbytes
  exact absurd (Option.some.inj hbytes) (by decide)

end Vantage.KeyText
