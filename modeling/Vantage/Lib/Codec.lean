import Vantage.Lib.Table

/-!
# Codecs

A codec writes a value as bytes and reads one off the front of an input.  Both may fail.

* `Codec.Writes c a`: the value can be written;
* `Codec.Reads c a`: whatever was written for it is read back as it was;
* `unit`, `fail`, `uint`, `u32`, `u64`, `byte`, `bool`: the leaves;
* `pair`, `via`, `list`, `tagged`, `option`, `table`: the combinators.

For each combinator there is a rule of `Writes`, an equivalence, and one of `Reads`.
-/

namespace Vantage

/-- A number of 32 bits. -/
def IsU32 (n : ℕ) : Prop := n < 2 ^ 32

/-- A number of 64 bits. -/
def IsU64 (n : ℕ) : Prop := n < 2 ^ 64

instance (n : ℕ) : Decidable (IsU64 n) := Nat.decLt _ _

/-- A way to write values as bytes and to read them. -/
structure Codec (α : Type) where
  encode : α → Option (List UInt8)
  decode : List UInt8 → Option (α × List UInt8)

namespace Codec

variable {α β : Type} {c : Codec α}

/-- The value can be written. -/
def Writes (c : Codec α) (a : α) : Prop := (c.encode a).isSome = true

/-- What was written for a value is read back as it, off the front of any input that starts so. -/
def Reads (c : Codec α) (a : α) : Prop :=
  ∀ bytes, c.encode a = some bytes → ∀ rest, c.decode (bytes ++ rest) = some (a, rest)

/-- Values with `P` can be written, and whatever can be written is read back as it was. -/
structure ExactOn (c : Codec α) (P : α → Prop) : Prop where
  writes : ∀ a, P a → c.Writes a
  reads : ∀ a, c.Reads a

/-- Every value can be written and is read back as it was. -/
abbrev Exact (c : Codec α) : Prop := c.ExactOn fun _ => True

theorem writes_iff {a : α} : c.Writes a ↔ ∃ bytes, c.encode a = some bytes :=
  Option.isSome_iff_exists

/-! ### Leaves -/

/-- Nothing is written. -/
def unit : Codec Unit := ⟨fun _ => some [], fun bytes => some ((), bytes)⟩

theorem unit_exact : unit.Exact where
  writes _ _ := rfl
  reads := by
    rintro _ _ ⟨⟩ _
    rfl

/-- The codec that always fails. -/
def fail : Codec α := ⟨fun _ => none, fun _ => none⟩

/-- The low `width` bytes of a number, the lowest first. -/
def digits : ℕ → ℕ → List UInt8
  | 0, _ => []
  | width + 1, n => UInt8.ofNat n :: digits width (n / 256)

/-- Reads a number off the front of the input. -/
def readDigits : ℕ → List UInt8 → Option (ℕ × List UInt8)
  | 0, bytes => some (0, bytes)
  | _ + 1, [] => none
  | width + 1, byte :: bytes =>
    (readDigits width bytes).map fun r => (byte.toNat + 256 * r.1, r.2)

/-- Numbers below `256 ^ width`, in so many bytes. -/
def uint (width : ℕ) : Codec ℕ where
  encode n := if n < 256 ^ width then some (digits width n) else none
  decode := readDigits width

theorem readDigits_digits (width n : ℕ) (hn : n < 256 ^ width) (rest : List UInt8) :
    readDigits width (digits width n ++ rest) = some (n, rest) := by
  induction width generalizing n with
  | zero =>
    obtain rfl : n = 0 := by simpa using hn
    rfl
  | succ width ih =>
    have hdiv : n / 256 < 256 ^ width := Nat.div_lt_of_lt_mul (by rwa [← pow_succ'])
    simp only [digits, List.cons_append, readDigits, ih _ hdiv, Option.map_some]
    rw [UInt8.toNat_ofNat', Nat.mod_add_div]

theorem digits_of_readDigits {width n : ℕ} {bytes rest : List UInt8}
    (h : readDigits width bytes = some (n, rest)) :
    n < 256 ^ width ∧ bytes = digits width n ++ rest := by
  induction width generalizing n bytes with
  | zero =>
    cases h
    exact ⟨Nat.one_pos, rfl⟩
  | succ width ih =>
    cases bytes with
    | nil => cases h
    | cons b bytes =>
      rw [readDigits, Option.map_eq_some_iff] at h
      obtain ⟨⟨high, rest'⟩, hr, heq⟩ := h
      cases heq
      obtain ⟨hhigh, hbytes⟩ := ih hr
      have hb := b.toNat_lt
      have hmod : UInt8.ofNat (b.toNat + 256 * high) = b := by
        apply UInt8.toNat_inj.mp
        rw [UInt8.toNat_ofNat']
        omega
      have hdiv : (b.toNat + 256 * high) / 256 = high := by omega
      refine ⟨by rw [pow_succ']; omega, ?_⟩
      rw [digits, hmod, hdiv, List.cons_append, ← hbytes]

theorem length_digits (width n : ℕ) : (digits width n).length = width := by
  induction width generalizing n with
  | zero => rfl
  | succ width ih => rw [digits, List.length_cons, ih]

@[simp]
theorem writes_uint {width n : ℕ} : (uint width).Writes n ↔ n < 256 ^ width := by
  simp [Writes, uint]

theorem uint_reads (width n : ℕ) : (uint width).Reads n := by
  intro bytes he rest
  obtain ⟨hn, heq⟩ := Option.ite_none_right_eq_some.mp he
  obtain rfl : digits width n = bytes := Option.some.inj heq
  exact readDigits_digits width n hn rest

/-- Numbers of 32 bits. -/
def u32 : Codec ℕ := uint 4

/-- Numbers of 64 bits. -/
def u64 : Codec ℕ := uint 8

@[simp]
theorem writes_u32 {n : ℕ} : u32.Writes n ↔ IsU32 n := writes_uint

@[simp]
theorem writes_u64 {n : ℕ} : u64.Writes n ↔ IsU64 n := writes_uint

theorem u32_reads (n : ℕ) : u32.Reads n := uint_reads 4 n

theorem u64_reads (n : ℕ) : u64.Reads n := uint_reads 8 n

/-- One byte as it is. -/
def byte : Codec UInt8 where
  encode b := some [b]
  decode bytes :=
    match bytes with
    | [] => none
    | b :: rest => some (b, rest)

theorem byte_exact : byte.Exact where
  writes _ _ := rfl
  reads := by
    rintro b _ ⟨⟩ _
    rfl

/-! ### Records -/

/-- One value after the other. -/
def pair (c : Codec α) (d : Codec β) : Codec (α × β) where
  encode p := do
    let front ← c.encode p.1
    let back ← d.encode p.2
    some (front ++ back)
  decode bytes := do
    let (a, bytes) ← c.decode bytes
    let (b, bytes) ← d.decode bytes
    some ((a, b), bytes)

@[simp]
theorem writes_pair {d : Codec β} {p : α × β} :
    (c.pair d).Writes p ↔ c.Writes p.1 ∧ d.Writes p.2 := by
  simp only [Writes, pair]
  cases c.encode p.1 <;> cases d.encode p.2 <;> simp

theorem Reads.pair {d : Codec β} {a : α} {b : β} (ha : c.Reads a) (hb : d.Reads b) :
    (c.pair d).Reads (a, b) := by
  intro bytes he rest
  simp only [Codec.pair, Option.bind_eq_bind, Option.bind_eq_some_iff, Option.some.injEq] at he
  obtain ⟨front, hea, back, heb, rfl⟩ := he
  simp [Codec.pair, ha front hea, hb back heb]

/-- Through another type, into which and out of which values may fail to go. -/
def via (c : Codec β) (f : α → Option β) (g : β → Option α) : Codec α where
  encode a := (f a).bind c.encode
  decode bytes := (c.decode bytes).bind fun r => (g r.1).map (·, r.2)

@[simp]
theorem writes_via {c : Codec β} {f : α → Option β} {g : β → Option α} {a : α} :
    (c.via f g).Writes a ↔ ∃ b, f a = some b ∧ c.Writes b := by
  cases h : f a <;> simp [Writes, via, h]

theorem Reads.via {c : Codec β} {f : α → Option β} {g : β → Option α} {a : α}
    (h : ∀ b, f a = some b → c.Reads b ∧ g b = some a) : (c.via f g).Reads a := by
  intro bytes he rest
  obtain ⟨b, hf, he⟩ := Option.bind_eq_some_iff.mp he
  obtain ⟨hb, hg⟩ := h b hf
  simp [Codec.via, hb bytes he, hg]

/-- The rule where it is known what the value goes to. -/
theorem Reads.via_some {c : Codec β} {f : α → Option β} {g : β → Option α} {a : α} {b : β}
    (hb : c.Reads b) (hf : f a = some b) (hg : g b = some a) : (c.via f g).Reads a := by
  refine .via fun x hx => ?_
  obtain rfl : b = x := Option.some.inj (hf.symm.trans hx)
  exact ⟨hb, hg⟩

/-! ### Sequences -/

/-- The values one after the other. -/
def encodeAll (c : Codec α) : List α → Option (List UInt8)
  | [] => some []
  | a :: l => do
    let front ← c.encode a
    let back ← encodeAll c l
    some (front ++ back)

/-- So many values. -/
def decodeN (c : Codec α) : ℕ → List UInt8 → Option (List α × List UInt8)
  | 0, bytes => some ([], bytes)
  | n + 1, bytes => do
    let (a, bytes) ← c.decode bytes
    let (l, bytes) ← decodeN c n bytes
    some (a :: l, bytes)

/-- A list behind its length. -/
def list (c : Codec α) (length : Codec ℕ) : Codec (List α) where
  encode l := do
    let front ← length.encode l.length
    let back ← c.encodeAll l
    some (front ++ back)
  decode bytes := do
    let (n, bytes) ← length.decode bytes
    c.decodeN n bytes

theorem isSome_encodeAll {l : List α} : (c.encodeAll l).isSome = true ↔ ∀ a ∈ l, c.Writes a := by
  induction l with
  | nil => simp [encodeAll]
  | cons a l ih =>
    rw [List.forall_mem_cons, ← ih, Writes, encodeAll]
    cases c.encode a <;> cases c.encodeAll l <;> simp

@[simp]
theorem writes_list {length : Codec ℕ} {l : List α} :
    (c.list length).Writes l ↔ length.Writes l.length ∧ ∀ a ∈ l, c.Writes a := by
  rw [← isSome_encodeAll]
  simp only [Writes, list]
  cases length.encode l.length <;> cases c.encodeAll l <;> simp

theorem Reads.all {l : List α} (h : ∀ a ∈ l, c.Reads a) {bytes : List UInt8}
    (he : c.encodeAll l = some bytes) (rest : List UInt8) :
    c.decodeN l.length (bytes ++ rest) = some (l, rest) := by
  induction l generalizing bytes with
  | nil =>
    cases he
    rfl
  | cons a l ih =>
    rw [List.forall_mem_cons] at h
    simp only [encodeAll, Option.bind_eq_bind, Option.bind_eq_some_iff, Option.some.injEq] at he
    obtain ⟨front, hea, back, hel, rfl⟩ := he
    simp [decodeN, h.1 front hea, ih h.2 hel]

theorem Reads.list {length : Codec ℕ} {l : List α} (hn : length.Reads l.length)
    (h : ∀ a ∈ l, c.Reads a) : (c.list length).Reads l := by
  intro bytes he rest
  simp only [Codec.list, Option.bind_eq_bind, Option.bind_eq_some_iff, Option.some.injEq] at he
  obtain ⟨front, hen, back, hel, rfl⟩ := he
  simp [Codec.list, hn front hen, Reads.all h hel]

/-! ### Enumerations -/

/-- A number that tells the cases apart, then what belongs to the case. -/
def tagged (tags : Codec ℕ) (tag : α → ℕ) (body : ℕ → Codec α) : Codec α where
  encode a := do
    let front ← tags.encode (tag a)
    let back ← (body (tag a)).encode a
    some (front ++ back)
  decode bytes := do
    let (t, bytes) ← tags.decode bytes
    (body t).decode bytes

@[simp]
theorem writes_tagged {tags : Codec ℕ} {tag : α → ℕ} {body : ℕ → Codec α} {a : α} :
    (tagged tags tag body).Writes a ↔ tags.Writes (tag a) ∧ (body (tag a)).Writes a := by
  simp only [Writes, tagged]
  cases tags.encode (tag a) <;> cases (body (tag a)).encode a <;> simp

theorem Reads.tagged {tags : Codec ℕ} {tag : α → ℕ} {body : ℕ → Codec α} {a : α}
    (ht : tags.Reads (tag a)) (h : (body (tag a)).Reads a) :
    (Codec.tagged tags tag body).Reads a := by
  intro bytes he rest
  simp only [Codec.tagged, Option.bind_eq_bind, Option.bind_eq_some_iff, Option.some.injEq] at he
  obtain ⟨front, het, back, hea, rfl⟩ := he
  simp [Codec.tagged, ht front het, h back hea]

/-- A byte that says whether there is a value, and the value. -/
def option (c : Codec α) : Codec (Option α) :=
  tagged (uint 1) (fun o => if o.isSome then 1 else 0) fun t =>
    match t with
    | 0 => unit.via (fun _ => some ()) fun _ => some none
    | 1 => c.via id fun a => some (some a)
    | _ => fail

@[simp]
theorem writes_option {o : Option α} : c.option.Writes o ↔ ∀ a ∈ o, c.Writes a := by
  cases o <;> simp [option, unit_exact.writes]

theorem Reads.option {o : Option α} (h : ∀ a ∈ o, c.Reads a) : c.option.Reads o := by
  cases o with
  | none => exact .tagged (uint_reads 1 0) ((unit_exact.reads ()).via_some rfl rfl)
  | some a => exact .tagged (uint_reads 1 1) ((h a rfl).via_some rfl rfl)

/-- A byte that is 0 or 1. -/
def bool : Codec Bool :=
  tagged (uint 1) Bool.toNat fun t =>
    match t with
    | 0 => unit.via (fun _ => some ()) fun _ => some false
    | 1 => unit.via (fun _ => some ()) fun _ => some true
    | _ => fail

theorem bool_exact : bool.Exact where
  writes b _ := by cases b <;> rfl
  reads b := by cases b <;> exact .tagged (uint_reads 1 _) ((unit_exact.reads ()).via_some rfl rfl)

/-! ### Maps -/

/-- The entries in the order of insertion; reading inserts them one after the other. -/
def table [DecidableEq α] (length : Codec ℕ) (c : Codec α) (d : Codec β) : Codec (Table α β) :=
  ((c.pair d).list length).via
    (fun t => some (t.entries.reverse.map fun e => (e.1, e.2)))
    (fun l => some (l.foldl (fun t e => t.insert e.1 e.2) ∅))

theorem foldr_insert_entries [DecidableEq α] (t : Table α β) :
    t.entries.foldr (fun e t => AList.insert e.1 e.2 t) ∅ = t := by
  obtain ⟨entries, hnodup⟩ := t
  induction entries with
  | nil => rfl
  | cons e l ih =>
    rw [List.nodupKeys_cons] at hnodup
    rw [List.foldr_cons, ih hnodup.2]
    apply AList.ext
    rw [AList.entries_insert]
    exact congrArg _ (List.kerase_of_notMem_keys hnodup.1)

@[simp]
theorem writes_table [DecidableEq α] {length : Codec ℕ} {d : Codec β} {t : Table α β} :
    (table length c d).Writes t ↔ length.Writes t.entries.length ∧
      ∀ a b, t.lookup a = some b → c.Writes a ∧ d.Writes b := by
  have hlookup : ∀ a b, t.lookup a = some b ↔ ⟨a, b⟩ ∈ t.entries := fun a b =>
    AList.mem_lookup_iff
  simp only [table, writes_via, Option.some.injEq, exists_eq_left', writes_list, List.length_map,
    List.length_reverse, List.mem_map, List.mem_reverse, writes_pair, hlookup]
  refine and_congr_right fun _ => ⟨fun h a b hab => h (a, b) ⟨⟨a, b⟩, hab, rfl⟩, ?_⟩
  rintro h _ ⟨e, he, rfl⟩
  exact h e.1 e.2 he

theorem Reads.table [DecidableEq α] {length : Codec ℕ} {d : Codec β} {t : Table α β}
    (hn : ∀ n, length.Reads n) (hc : ∀ a, c.Reads a)
    (hd : ∀ a b, t.lookup a = some b → d.Reads b) : (Codec.table length c d).Reads t := by
  refine .via_some (b := t.entries.reverse.map fun e => (e.1, e.2)) (.list (hn _) ?_) rfl ?_
  · intro p hp
    obtain ⟨e, he, rfl⟩ := List.mem_map.mp hp
    exact (hc e.1).pair (hd e.1 e.2 (AList.mem_lookup_iff.mpr (List.mem_reverse.mp he)))
  · rw [List.foldl_map, List.foldl_reverse, foldr_insert_entries]

end Codec

end Vantage
