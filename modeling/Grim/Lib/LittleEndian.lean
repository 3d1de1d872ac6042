import Mathlib.Tactic

/-!
# Little-endian numbers

`bytes w n` is the number `n` in `w` bytes, lowest first, and `value` reads bytes back.  A list of
32-bit words is the words' bytes one after the other; `unwords` reads whole words and drops what
is left.
-/

open List

namespace LittleEndian

def bytes : ℕ → ℕ → List UInt8
  | 0, _ => []
  | w + 1, n => UInt8.ofNat n :: bytes w (n / 256)

def value : List UInt8 → ℕ
  | [] => 0
  | b :: bs => b.toNat + 256 * value bs

@[simp] theorem length_bytes : ∀ w n, (bytes w n).length = w
  | 0, _ => rfl
  | w + 1, n => by rw [bytes, length_cons, length_bytes w]

theorem value_bytes : ∀ w n, n < 256 ^ w → value (bytes w n) = n
  | 0, n, h => by
    rw [pow_zero, Nat.lt_one_iff] at h
    rw [h, bytes, value]
  | w + 1, n, h => by
    have hdiv : n / 256 < 256 ^ w := by
      rw [Nat.div_lt_iff_lt_mul (by omega), ← pow_succ]
      exact h
    rw [bytes, value, value_bytes w _ hdiv, UInt8.toNat_ofNat']
    have := Nat.mod_add_div n 256
    simpa using this

theorem value_bytes_mod : ∀ w n, value (bytes w n) = n % 256 ^ w
  | 0, n => by rw [bytes, value, pow_zero, Nat.mod_one]
  | w + 1, n => by
    have hlow : (UInt8.ofNat n).toNat = n % 256 := UInt8.toNat_ofNat'
    rw [bytes, value, value_bytes_mod w, hlow, pow_succ', Nat.mod_mul]

theorem value_lt : ∀ bs : List UInt8, value bs < 256 ^ bs.length
  | [] => by simp [value]
  | b :: bs => by
    have hb := b.toNat_lt
    have ih := value_lt bs
    rw [value, length_cons, pow_succ]
    omega

theorem bytes_value : ∀ bs : List UInt8, bytes bs.length (value bs) = bs
  | [] => rfl
  | b :: bs => by
    have hb := b.toNat_lt
    have hdiv : (b.toNat + 256 * value bs) / 256 = value bs := by omega
    have hmod : UInt8.ofNat (b.toNat + 256 * value bs) = b := by
      rw [← UInt8.toNat_inj, UInt8.toNat_ofNat']
      omega
    rw [length_cons, value, bytes, hdiv, hmod, bytes_value bs]

def word (x : UInt32) : List UInt8 := bytes 4 x.toNat

def ofWord (bs : List UInt8) : UInt32 := UInt32.ofNat (value bs)

@[simp] theorem length_word (x : UInt32) : (word x).length = 4 := length_bytes 4 _

theorem ofWord_word (x : UInt32) : ofWord (word x) = x := by
  rw [ofWord, word, value_bytes 4 _ x.toNat_lt, UInt32.ofNat_toNat]

theorem word_ofWord {bs : List UInt8} (h : bs.length = 4) : word (ofWord bs) = bs := by
  have hlt : value bs < 2 ^ 32 := by
    have := value_lt bs
    rwa [h] at this
  rw [word, ofWord, UInt32.toNat_ofNat', Nat.mod_eq_of_lt hlt, ← h, bytes_value]

def words (xs : List UInt32) : List UInt8 := xs.flatMap word

def unwords : List UInt8 → List UInt32
  | a :: b :: c :: d :: bs => ofWord [a, b, c, d] :: unwords bs
  | _ => []

theorem length_unwords : ∀ bs : List UInt8, (unwords bs).length = bs.length / 4
  | [] | [_] | [_, _] | [_, _, _] => by simp [unwords]
  | a :: b :: c :: d :: bs => by
    rw [unwords, length_cons, length_unwords bs]
    simp only [length_cons]
    omega

@[simp] theorem words_nil : words [] = [] := rfl

@[simp] theorem words_cons (x : UInt32) (xs : List UInt32) :
    words (x :: xs) = word x ++ words xs := rfl

@[simp] theorem words_append (xs ys : List UInt32) : words (xs ++ ys) = words xs ++ words ys :=
  flatMap_append

@[simp] theorem length_words : ∀ xs : List UInt32, (words xs).length = xs.length * 4
  | [] => rfl
  | x :: xs => by
    rw [words_cons, length_append, length_word, length_words xs, length_cons]
    omega

theorem unwords_word_append (x : UInt32) (bs : List UInt8) :
    unwords (word x ++ bs) = x :: unwords bs := by
  have hfour : word x ++ bs = (word x)[0] :: (word x)[1] :: (word x)[2] :: (word x)[3] :: bs := rfl
  have hw : [(word x)[0], (word x)[1], (word x)[2], (word x)[3]] = word x := rfl
  rw [hfour, unwords, hw, ofWord_word]

@[simp] theorem unwords_words : ∀ xs : List UInt32, unwords (words xs) = xs
  | [] => rfl
  | x :: xs => by rw [words_cons, unwords_word_append, unwords_words xs]

theorem drop_unwords : ∀ (n : ℕ) (bs : List UInt8), (unwords bs).drop n = unwords (bs.drop (n * 4))
  | 0, bs => by simp
  | n + 1, a :: b :: c :: d :: bs => by
    rw [unwords, drop_succ_cons, drop_unwords n bs, Nat.succ_mul]
    rfl
  | n + 1, [] | n + 1, [_] | n + 1, [_, _] | n + 1, [_, _, _] => by
    rw [drop_eq_nil_of_le (by simp [length_unwords]),
      drop_eq_nil_of_le (by simp only [length_cons, length_nil]; omega)]
    rfl

theorem take_unwords : ∀ (n : ℕ) (bs : List UInt8), (unwords bs).take n = unwords (bs.take (n * 4))
  | 0, bs => by simp [unwords]
  | n + 1, a :: b :: c :: d :: bs => by
    rw [unwords, take_succ_cons, take_unwords n bs, Nat.succ_mul]
    rfl
  | n + 1, [] | n + 1, [_] | n + 1, [_, _] | n + 1, [_, _, _] => by
    rw [take_of_length_le (by simp [length_unwords]),
      take_of_length_le (by simp only [length_cons, length_nil]; omega)]

end LittleEndian

/-!
## Numbers in groups of seven bits

A number is written in base 128, the lowest digit first; every byte but the last has its high bit
set.
-/

namespace Leb128

def encode (n : ℕ) : List UInt8 :=
  if n < 128 then [UInt8.ofNat n] else UInt8.ofNat (n % 128 + 128) :: encode (n / 128)
termination_by n
decreasing_by omega

theorem encode_of_lt {n : ℕ} (h : n < 128) : encode n = [UInt8.ofNat n] := by
  rw [encode, if_pos h]

theorem encode_of_le {n : ℕ} (h : 128 ≤ n) :
    encode n = UInt8.ofNat (n % 128 + 128) :: encode (n / 128) := by
  rw [encode, if_neg (Nat.not_lt.mpr h)]

theorem length_encode_pos (n : ℕ) : 0 < (encode n).length := by
  rw [encode]
  split_ifs <;> simp

theorem toNat_ofNat {n : ℕ} (h : n < 256) : (UInt8.ofNat n).toNat = n := by
  rw [UInt8.toNat_ofNat', Nat.mod_eq_of_lt h]

theorem toNat_digit (b : UInt8) : (b &&& 0x7f).toNat = b.toNat % 128 := by
  rw [UInt8.toNat_and]
  exact Nat.and_two_pow_sub_one_eq_mod b.toNat 7

theorem forall_byte {P : UInt8 → Prop} (h : ∀ n : Fin 256, P (UInt8.ofNat n)) (b : UInt8) :
    P b := by
  have hb := h ⟨b.toNat, b.toNat_lt⟩
  rwa [UInt8.ofNat_toNat] at hb

theorem toNat_continued (b : UInt8) : (b ||| 0x80).toNat = b.toNat % 128 + 128 :=
  forall_byte (P := fun b => (b ||| 0x80).toNat = b.toNat % 128 + 128) (by decide +kernel) b

theorem ends_iff (b : UInt8) : b &&& 0x80 = 0 ↔ b.toNat < 128 :=
  forall_byte (P := fun b => b &&& 0x80 = 0 ↔ b.toNat < 128) (by decide +kernel) b

end Leb128
