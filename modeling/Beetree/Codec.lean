import Mathlib.Data.List.Basic
import Mathlib.Tactic
import Beetree.OrdMap

/-! Self-delimiting binary codecs over bytes.

A codec carries its own laws: an encoding short enough for its length fields reads back, whatever
follows it, and a successful read does not depend on what lies behind the bytes it consumed. The
formats built here are those of a fixed-width little-endian serializer. -/
namespace Beetree

abbrev Byte := Fin 256

instance byteNeZero : NeZero 256 := ⟨by decide⟩

/-- The `w` low bytes of a number, least significant first. -/
def leBytes : ℕ → ℕ → List Byte
  | 0, _ => []
  | w + 1, n => Fin.ofNat 256 n :: leBytes w (n / 256)

def leNat : List Byte → ℕ
  | [] => 0
  | b :: bs => b.val + 256 * leNat bs

@[simp] lemma leBytes_length (w n : ℕ) : (leBytes w n).length = w := by
  induction w generalizing n with
  | zero => rfl
  | succ w ih => simp [leBytes, ih]

lemma leNat_leBytes (w n : ℕ) : leNat (leBytes w n) = n % 256 ^ w := by
  induction w generalizing n with
  | zero => simp [leBytes, leNat, Nat.mod_one]
  | succ w ih =>
    simp only [leBytes, leNat, ih, Fin.ofNat, pow_succ']
    rw [Nat.mod_mul]

lemma leNat_leBytes_of_lt {w n : ℕ} (h : n < 256 ^ w) : leNat (leBytes w n) = n := by
  rw [leNat_leBytes, Nat.mod_eq_of_lt h]

/-- No length field can count more than this many items. -/
def wordLimit : ℕ := 2 ^ 64

structure Codec (α : Type) where
  enc : α → List Byte
  dec : List Byte → Option (α × List Byte)
  pos : ∀ a, 0 < (enc a).length
  dec_enc : ∀ a rest, (enc a).length < wordLimit → dec (enc a ++ rest) = some (a, rest)
  dec_append : ∀ {s a rest} (t), dec s = some (a, rest) → dec (s ++ t) = some (a, rest ++ t)

namespace Codec
variable {α β : Type}

lemma enc_injective (c : Codec α) {a b : α} (ha : (c.enc a).length < wordLimit)
    (h : c.enc a = c.enc b) : a = b := by
  have h₁ := c.dec_enc a [] ha
  have h₂ := c.dec_enc b [] (h ▸ ha)
  rw [h, h₂] at h₁
  exact (congrArg Prod.fst (Option.some.inj h₁)).symm

lemma dec_prefix (c : Codec α) {a : α} (ha : (c.enc a).length < wordLimit) {s t : List Byte}
    (hs : c.enc a = s ++ t)
    (ht : t ≠ []) : c.dec s = none := by
  cases hd : c.dec s with
  | none => rfl
  | some x =>
    have h₁ := c.dec_enc a [] ha
    rw [List.append_nil, hs, c.dec_append t hd, Option.some.injEq, Prod.mk.injEq] at h₁
    exact absurd (List.append_eq_nil_iff.mp h₁.2).2 ht

def readWord (w : ℕ) (s : List Byte) : Option (ℕ × List Byte) :=
  if w ≤ s.length then some (leNat (s.take w), s.drop w) else none

lemma readWord_leBytes {w n : ℕ} (hn : n < 256 ^ w) (rest : List Byte) :
    readWord w (leBytes w n ++ rest) = some (n, rest) := by
  unfold readWord
  rw [if_pos (by simp), List.take_left' (leBytes_length w n), List.drop_left' (leBytes_length w n),
    leNat_leBytes_of_lt hn]

lemma readWord_append {w n : ℕ} {s rest : List Byte} (t : List Byte)
    (h : readWord w s = some (n, rest)) :
    readWord w (s ++ t) = some (n, rest ++ t) := by
  unfold readWord at h ⊢
  split_ifs at h with hw
  simp only [Option.some.injEq, Prod.mk.injEq] at h
  rw [if_pos (by simp; omega), List.take_append_of_le_length hw,
    List.drop_append_of_le_length hw, h.1, h.2]

/-- A fixed-width number type read through its value. -/
def word (w : ℕ) (hw : 0 < w) (toNat : α → ℕ) (ofNat : ℕ → α) (hlt : ∀ a, toNat a < 256 ^ w)
    (hof : ∀ a, ofNat (toNat a) = a) : Codec α where
  enc a := leBytes w (toNat a)
  dec s := (readWord w s).map fun x => (ofNat x.1, x.2)
  pos a := by simpa using hw
  dec_enc a rest _ := by rw [readWord_leBytes (hlt a), Option.map_some, hof]
  dec_append t h := by
    rw [Option.map_eq_some_iff] at h
    obtain ⟨⟨n, r⟩, hr, hx⟩ := h
    simp only [Prod.mk.injEq] at hx
    rw [readWord_append t hr, Option.map_some, hx.1, hx.2]

def byte : Codec Byte where
  enc b := [b]
  dec s := match s with
    | [] => none
    | b :: s => some (b, s)
  pos _ := Nat.one_pos
  dec_enc _ _ _ := rfl
  dec_append {s _ _} t h := by
    cases s with
    | nil => cases h
    | cons b s =>
      cases h
      rfl

def u32 : Codec UInt32 := word 4 (by decide) UInt32.toNat UInt32.ofNat (fun a => a.toNat_lt)
    fun a => by simp

def u64 : Codec UInt64 := word 8 (by decide) UInt64.toNat UInt64.ofNat (fun a => a.toNat_lt)
    fun a => by simp

/-- A signed word is stored as its two's complement. -/
def i64 : Codec (BitVec 64) := word 8 (by decide) BitVec.toNat (BitVec.ofNat 64)
    (fun a => a.isLt) fun a => by simp

def pair (c : Codec α) (d : Codec β) : Codec (α × β) where
  enc x := c.enc x.1 ++ d.enc x.2
  dec s := (c.dec s).bind fun x => (d.dec x.2).map fun y => ((x.1, y.1), y.2)
  pos x := by
    rw [List.length_append]
    exact Nat.add_pos_left (c.pos x.1) _
  dec_enc x rest h := by
    rw [List.length_append] at h
    rw [List.append_assoc, c.dec_enc _ _ (by omega), Option.bind_some, d.dec_enc _ _ (by omega)]
    rfl
  dec_append t h := by
    obtain ⟨x, hx, h⟩ := Option.bind_eq_some_iff.mp h
    obtain ⟨y, hy, h⟩ := Option.map_eq_some_iff.mp h
    cases h
    rw [c.dec_append t hx, Option.bind_some, d.dec_append t hy]
    rfl

/-- The same bytes under another type, some of whose readings may be refused. -/
def conv (c : Codec α) (f : β → α) (g : α → Option β) (hg : ∀ b, g (f b) = some b) : Codec β where
  enc b := c.enc (f b)
  dec s := (c.dec s).bind fun x => (g x.1).map fun b => (b, x.2)
  pos b := c.pos (f b)
  dec_enc b rest h := by rw [c.dec_enc _ _ h, Option.bind_some, hg, Option.map_some]
  dec_append t h := by
    obtain ⟨x, hx, h⟩ := Option.bind_eq_some_iff.mp h
    obtain ⟨b, hb, h⟩ := Option.map_eq_some_iff.mp h
    cases h
    rw [c.dec_append t hx, Option.bind_some, hb, Option.map_some]

def readMany (c : Codec α) : ℕ → List Byte → Option (List α × List Byte)
  | 0, s => some ([], s)
  | n + 1, s => (c.dec s).bind fun x => (readMany c n x.2).map fun y => (x.1 :: y.1, y.2)

lemma readMany_enc (c : Codec α) (l : List α) (rest : List Byte)
    (h : (l.flatMap c.enc).length < wordLimit) :
    readMany c l.length (l.flatMap c.enc ++ rest) = some (l, rest) := by
  induction l with
  | nil => rfl
  | cons a l ih =>
    rw [List.flatMap_cons, List.length_append] at h
    rw [List.flatMap_cons, List.append_assoc, List.length_cons, readMany, c.dec_enc _ _ (by omega),
      Option.bind_some, ih (by omega)]
    rfl

lemma readMany_append (c : Codec α) {n : ℕ} {s : List Byte} {l : List α}
    {rest : List Byte} (t : List Byte)
    (h : readMany c n s = some (l, rest)) : readMany c n (s ++ t) = some (l, rest ++ t) := by
  induction n generalizing s l with
  | zero =>
    cases h
    rfl
  | succ n ih =>
    obtain ⟨x, hx, h⟩ := Option.bind_eq_some_iff.mp h
    obtain ⟨y, hy, h⟩ := Option.map_eq_some_iff.mp h
    cases h
    rw [readMany, c.dec_append t hx, Option.bind_some, ih hy]
    rfl

lemma length_le_flatMap (c : Codec α) (l : List α) : l.length ≤ (l.flatMap c.enc).length := by
  induction l with
  | nil => simp
  | cons a l ih =>
    have := c.pos a
    simp only [List.length_cons, List.flatMap_cons, List.length_append]
    omega

/-- A sequence: its length as a word, then its items. -/
def list (c : Codec α) : Codec (List α) where
  enc l := leBytes 8 l.length ++ l.flatMap c.enc
  dec s := (readWord 8 s).bind fun x => readMany c x.1 x.2
  pos l := by
    rw [List.length_append, leBytes_length]
    omega
  dec_enc l rest h := by
    rw [List.length_append, leBytes_length] at h
    have hl : l.length < 256 ^ 8 := by
      have := length_le_flatMap c l
      unfold wordLimit at h
      omega
    rw [List.append_assoc, readWord_leBytes hl, Option.bind_some]
    exact readMany_enc c l rest (by omega)
  dec_append t h := by
    obtain ⟨x, hx, h⟩ := Option.bind_eq_some_iff.mp h
    rw [readWord_append t hx, Option.bind_some]
    exact readMany_append c t h

/-- An ordered map, as the sequence of its bindings. A reader inserts them in the order it finds
them, which need not be that of the keys. -/
def map {κ ν : Type} [LinearOrder κ] (c : Codec (κ × ν)) : Codec (OrdMap κ ν) :=
  (list c).conv OrdMap.toList (fun l => some (OrdMap.ofList l)) fun m =>
    by rw [OrdMap.ofList_toList]

end Codec

/-- The variants of an enumeration, numbered from zero, each with the codec of its fields. -/
structure Cases (α : Type) where
  count : ℕ
  tag : α → ℕ
  enc : α → List Byte
  dec : ℕ → List Byte → Option (α × List Byte)
  tag_lt : ∀ a, tag a < count
  dec_enc : ∀ a rest, (enc a).length < wordLimit → dec (tag a) (enc a ++ rest) = some (a, rest)
  dec_append : ∀ {n s a rest} (t), dec n s = some (a, rest) → dec n (s ++ t) = some (a, rest ++ t)

namespace Cases
variable {α β : Type}

def last (c : Codec α) : Cases α where
  count := 1
  tag _ := 0
  enc := c.enc
  dec n s := if n = 0 then c.dec s else none
  tag_lt _ := Nat.one_pos
  dec_enc a rest h := by rw [if_pos rfl, c.dec_enc a rest h]
  dec_append t h := by
    split_ifs at h with hn
    rw [if_pos hn, c.dec_append t h]

def cons (c : Codec α) (v : Cases β) : Cases (α ⊕ β) where
  count := v.count + 1
  tag := Sum.elim (fun _ => 0) (fun b => v.tag b + 1)
  enc := Sum.elim c.enc v.enc
  dec n s := match n with
    | 0 => (c.dec s).map fun x => (Sum.inl x.1, x.2)
    | n + 1 => (v.dec n s).map fun x => (Sum.inr x.1, x.2)
  tag_lt x := by
    cases x with
    | inl a => exact Nat.succ_pos _
    | inr b => exact Nat.succ_lt_succ (v.tag_lt b)
  dec_enc x rest h := by
    cases x with
    | inl a =>
      change (c.dec (c.enc a ++ rest)).map _ = _
      rw [c.dec_enc a rest h, Option.map_some]
    | inr b =>
      change (v.dec (v.tag b) (v.enc b ++ rest)).map _ = _
      rw [v.dec_enc b rest h, Option.map_some]
  dec_append {n _ _ _} t h := by
    cases n with
    | zero =>
      obtain ⟨x, hx, h⟩ := Option.map_eq_some_iff.mp h
      cases h
      change (c.dec _).map _ = _
      rw [c.dec_append t hx, Option.map_some]
    | succ n =>
      obtain ⟨x, hx, h⟩ := Option.map_eq_some_iff.mp h
      cases h
      change (v.dec n _).map _ = _
      rw [v.dec_append t hx, Option.map_some]

end Cases

/-- An enumeration: the number of the variant in four bytes, then its fields. -/
def Codec.enum {α : Type} (v : Cases α) (hv : v.count ≤ 256 ^ 4) : Codec α where
  enc a := leBytes 4 (v.tag a) ++ v.enc a
  dec s := (readWord 4 s).bind fun x => v.dec x.1 x.2
  pos a := by
    rw [List.length_append, leBytes_length]
    omega
  dec_enc a rest h := by
    rw [List.length_append] at h
    rw [List.append_assoc, readWord_leBytes ((v.tag_lt a).trans_le hv), Option.bind_some,
      v.dec_enc a rest (by omega)]
  dec_append t h := by
    obtain ⟨x, hx, h⟩ := Option.bind_eq_some_iff.mp h
    rw [readWord_append t hx, Option.bind_some, v.dec_append t h]

end Beetree
