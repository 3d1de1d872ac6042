import Mathlib.Tactic

/-!
# UTF-8, and reading bytes that need not be UTF-8

`encode` is the bytes of a text, `lossy` reads any bytes, with U+FFFD for what is no text.  Bytes
made of whole encodings and single bytes (`Unit`) have at most as many characters as parts; where
they have as many, each part was read on its own (`lossy_units`).
-/

namespace Utf8

open List

def encode (text : List Char) : List UInt8 := text.flatMap String.utf8EncodeChar

@[simp] theorem encode_nil : encode [] = [] := rfl

@[simp] theorem encode_cons (c : Char) (text : List Char) :
    encode (c :: text) = String.utf8EncodeChar c ++ encode text := rfl

@[simp] theorem encode_append (s t : List Char) : encode (s ++ t) = encode s ++ encode t :=
  flatMap_append

def size (text : List Char) : ℕ := (encode text).length

@[simp] theorem size_nil : size [] = 0 := rfl

@[simp] theorem size_cons (c : Char) (text : List Char) :
    size (c :: text) = c.utf8Size + size text := by simp [size]

@[simp] theorem size_append (s t : List Char) : size (s ++ t) = size s + size t := by
  simp [size]

theorem size_pos {text : List Char} (h : text ≠ []) : 0 < size text := by
  rcases text with _ | ⟨c, text⟩
  · exact absurd rfl h
  · have := c.utf8Size_pos
    rw [size_cons]
    omega

def decodeChar (bs : List UInt8) : Option Char := ByteArray.utf8DecodeChar? bs.toByteArray 0

theorem decodeChar_encode (c : Char) (bs : List UInt8) :
    decodeChar (String.utf8EncodeChar c ++ bs) = some c := by
  rw [decodeChar, toByteArray_append]
  exact ByteArray.utf8DecodeChar?_utf8EncodeChar_append

theorem decodeChar_eq_some {bs : List UInt8} {c : Char} (h : decodeChar bs = some c) :
    ∃ rest, bs = String.utf8EncodeChar c ++ rest := by
  obtain ⟨l, hl⟩ := ByteArray.exists_of_utf8DecodeChar?_eq_some h
  refine ⟨l.data.toList, ?_⟩
  have hdata := congrArg (fun a => a.data.toList) hl
  simpa using hdata

theorem encodeChar_eq_cons (c : Char) : ∃ b ts, String.utf8EncodeChar c = b :: ts ∧
    b.IsUTF8FirstByte ∧ (∀ t ∈ ts, ¬t.IsUTF8FirstByte) ∧ c.utf8Size = 1 + ts.length := by
  have hlength := String.length_utf8EncodeChar c
  rcases henc : String.utf8EncodeChar c with _ | ⟨b, ts⟩
  · rw [henc] at hlength
    have := c.utf8Size_pos
    simp only [length_nil] at hlength
    omega
  · rw [henc, length_cons] at hlength
    have hfirst : ∀ i, (hi : i < (String.utf8EncodeChar c).length) →
        (((String.utf8EncodeChar c)[i]).IsUTF8FirstByte ↔ i = 0) := fun i hi =>
      UInt8.isUTF8FirstByte_getElem_utf8EncodeChar
    simp only [henc] at hfirst
    refine ⟨b, ts, rfl, (hfirst 0 (by simp)).2 rfl, fun t ht => ?_, by omega⟩
    obtain ⟨i, hi, rfl⟩ := getElem_of_mem ht
    have := hfirst (i + 1) (by simpa using hi)
    simpa using this

theorem encodeChar_ascii {b : UInt8} (h : b < 0x80) :
    String.utf8EncodeChar (Char.ofNat b.toNat) = [b] := by
  have hall : ∀ n, n < 128 → String.utf8EncodeChar (Char.ofNat n) = [UInt8.ofNat n] := by
    decide +kernel
  have hb := hall b.toNat (by simpa using UInt8.lt_iff_toNat_lt.1 h)
  rwa [UInt8.ofNat_toNat] at hb

theorem ascii_of_encodeChar {c : Char} {b : UInt8} (h : String.utf8EncodeChar c = [b]) :
    b < 0x80 ∧ Char.ofNat b.toNat = c := by
  have hsize : c.utf8Size = 1 := by rw [← String.length_utf8EncodeChar, h]; rfl
  have hval := Char.utf8Size_eq_one_iff.1 hsize
  rw [String.utf8EncodeChar_eq_singleton hsize, List.cons.injEq] at h
  have hnat : c.val.toNat < 128 := by
    have hle : c.val.toNat ≤ 127 := UInt32.le_iff_toNat_le.1 hval
    omega
  have hb : b.toNat = c.val.toNat := by
    rw [← h.1]
    simp only [UInt32.toNat_toUInt8]
    omega
  refine ⟨?_, ?_⟩
  · rw [UInt8.lt_iff_toNat_lt, hb]
    exact hnat
  · rw [hb]
    exact Char.ofNat_toNat c

def replacement : Char := Char.ofNat 0xFFFD

def isTail (b : UInt8) : Bool := 0x80 ≤ b && b ≤ 0xBF

/-- The second bytes that can follow the first of three or four. -/
def secondOk (w x : UInt8) : Bool :=
  if w = 0xE0 then 0xA0 ≤ x && x ≤ 0xBF
  else if w = 0xED then 0x80 ≤ x && x ≤ 0x9F
  else if w = 0xF0 then 0x90 ≤ x && x ≤ 0xBF
  else if w = 0xF4 then 0x80 ≤ x && x ≤ 0x8F
  else 0xE1 ≤ w && w ≤ 0xF3 && isTail x

/-- How many bytes one U+FFFD stands for where no encoding starts: the longest start of one, or
the byte. -/
def invalidLength : List UInt8 → ℕ
  | w :: x :: y :: _ => if secondOk w x then (if 0xF0 ≤ w && isTail y then 3 else 2) else 1
  | [w, x] => if secondOk w x then 2 else 1
  | _ => 1

def nextChar (bs : List UInt8) : Char × ℕ :=
  match decodeChar bs with
  | some c => (c, c.utf8Size)
  | none => (replacement, invalidLength bs)

def lossyAux : ℕ → List UInt8 → List Char
  | 0, _ => []
  | _, [] => []
  | n + 1, b :: bs => (nextChar (b :: bs)).1 :: lossyAux n ((b :: bs).drop (nextChar (b :: bs)).2)

/-- `String::from_utf8_lossy` -/
def lossy (bs : List UInt8) : List Char := lossyAux bs.length bs

theorem isTail_notFirst {x : UInt8} (h : isTail x = true) : ¬x.IsUTF8FirstByte := by
  have hall : ∀ n, n < 256 → isTail (UInt8.ofNat n) = true → ¬(UInt8.ofNat n).IsUTF8FirstByte := by
    decide +kernel
  have := hall x.toNat (by exact x.toNat_lt)
  rw [UInt8.ofNat_toNat] at this
  exact this h

theorem secondOk_notFirst {w x : UInt8} (h : secondOk w x = true) : ¬x.IsUTF8FirstByte := by
  apply isTail_notFirst
  simp only [secondOk, isTail, Bool.and_eq_true, decide_eq_true_eq] at h ⊢
  simp only [UInt8.le_iff_toNat_le] at h ⊢
  split_ifs at h <;> simp at h ⊢ <;> omega

/-- Beyond its first byte, the next character takes bytes that start no encoding; and where it takes
one byte only, the byte is the character, or is none. -/
theorem nextChar_cases (b : UInt8) (bs : List UInt8) : ∃ ts rest, bs = ts ++ rest ∧
    (nextChar (b :: bs)).2 = 1 + ts.length ∧ (∀ t ∈ ts, ¬t.IsUTF8FirstByte) ∧
      (ts = [] → (nextChar (b :: bs)).1 =
        if b < 0x80 then Char.ofNat b.toNat else replacement) := by
  rcases hchar : decodeChar (b :: bs) with _ | c
  · have hascii : ¬b < 0x80 := fun hb => by
      have := decodeChar_encode (Char.ofNat b.toNat) bs
      rw [encodeChar_ascii hb] at this
      rw [singleton_append, hchar] at this
      exact absurd this (by simp)
    have hnext : nextChar (b :: bs) = (replacement, invalidLength (b :: bs)) := by
      rw [nextChar, hchar]
    rw [hnext, if_neg hascii]
    have hone : ∀ bs' : List UInt8, invalidLength (b :: bs') = 1 → bs' = bs →
        ∃ ts rest, bs = ts ++ rest ∧ invalidLength (b :: bs) = 1 + ts.length ∧
          (∀ t ∈ ts, ¬t.IsUTF8FirstByte) ∧ (ts = [] → replacement = replacement) := by
      rintro _ h rfl
      exact ⟨[], _, rfl, h, by simp, fun _ => rfl⟩
    rcases bs with _ | ⟨x, _ | ⟨y, bs⟩⟩
    · exact hone [] rfl rfl
    · by_cases hx : secondOk b x = true
      · refine ⟨[x], [], rfl, by simp [invalidLength, hx], ?_, fun _ => rfl⟩
        simpa using secondOk_notFirst hx
      · exact hone [x] (by simp [invalidLength, hx]) rfl
    · by_cases hx : secondOk b x = true
      · by_cases hy : (0xF0 ≤ b && isTail y) = true
        · refine ⟨[x, y], bs, rfl, ?_, ?_, fun _ => rfl⟩
          · rw [invalidLength, if_pos hx, if_pos hy]
            rfl
          · have hy := isTail_notFirst (Bool.and_eq_true_iff.1 hy).2
            simpa using ⟨secondOk_notFirst hx, hy⟩
        · refine ⟨[x], y :: bs, rfl, ?_, ?_, fun _ => rfl⟩
          · rw [invalidLength, if_pos hx, if_neg hy]
            rfl
          · simpa using secondOk_notFirst hx
      · exact hone (x :: y :: bs) (by rw [invalidLength, if_neg hx]) rfl
  · have hnext : nextChar (b :: bs) = (c, c.utf8Size) := by rw [nextChar, hchar]
    obtain ⟨rest, hrest⟩ := decodeChar_eq_some hchar
    obtain ⟨b', ts, henc, _, htail, hsize⟩ := encodeChar_eq_cons c
    rw [henc, cons_append] at hrest
    obtain ⟨rfl, rfl⟩ := List.cons.inj hrest
    rw [hnext]
    refine ⟨ts, rest, rfl, hsize, htail, ?_⟩
    rintro rfl
    obtain ⟨hb, hc⟩ := ascii_of_encodeChar henc
    rw [if_pos hb, hc]

inductive Part
  | whole (c : Char)
  | lone (b : UInt8)

namespace Part

def bytes : Part → List UInt8
  | whole c => String.utf8EncodeChar c
  | lone b => [b]

def face : Part → Char
  | whole c => c
  | lone b => if b < 0x80 then Char.ofNat b.toNat else replacement

end Part

def bytesOf (ps : List Part) : List UInt8 := ps.flatMap Part.bytes

@[simp] theorem bytesOf_cons (p : Part) (ps : List Part) :
    bytesOf (p :: ps) = p.bytes ++ bytesOf ps := rfl

theorem bytesOf_tails : ∀ {ts : List UInt8} {ps : List Part} {rest : List UInt8},
    (∀ t ∈ ts, ¬t.IsUTF8FirstByte) → bytesOf ps = ts ++ rest →
      bytesOf (ps.drop ts.length) = rest ∧ ts.length ≤ ps.length
  | [], _, _, _, h => ⟨h, Nat.zero_le _⟩
  | t :: ts, [], _, _, h => by simp [bytesOf] at h
  | t :: ts, .lone b :: ps, rest, hts, h => by
    rw [bytesOf_cons, Part.bytes, singleton_append, cons_append] at h
    obtain ⟨hrest, hle⟩ := bytesOf_tails (fun u hu => hts u (mem_cons_of_mem _ hu))
      (List.cons.inj h).2
    exact ⟨hrest, by simpa using hle⟩
  | t :: ts, .whole c :: ps, rest, hts, h => by
    obtain ⟨b, us, henc, hfirst, _⟩ := encodeChar_eq_cons c
    rw [bytesOf_cons, Part.bytes, henc, cons_append, cons_append] at h
    obtain ⟨rfl, _⟩ := List.cons.inj h
    exact absurd hfirst (hts _ mem_cons_self)

theorem nextChar_bytesOf (p : Part) (ps : List Part) : ∃ n, n ≤ ps.length ∧
    (bytesOf (p :: ps)).drop (nextChar (bytesOf (p :: ps))).2 = bytesOf (ps.drop n) ∧
      (n = 0 → (nextChar (bytesOf (p :: ps))).1 = p.face) := by
  rcases p with c | b
  · have hnext : nextChar (bytesOf (.whole c :: ps)) = (c, c.utf8Size) := by
      rw [nextChar, bytesOf_cons, Part.bytes, decodeChar_encode]
    rw [hnext]
    refine ⟨0, Nat.zero_le _, ?_, fun _ => rfl⟩
    rw [bytesOf_cons, Part.bytes, drop_left' (String.length_utf8EncodeChar c), drop_zero]
  · obtain ⟨ts, rest, hrest, hlength, htail, hface⟩ := nextChar_cases b (bytesOf ps)
    obtain ⟨hdrop, hle⟩ := bytesOf_tails htail hrest
    refine ⟨ts.length, hle, ?_, fun hn => hface (length_eq_zero_iff.1 hn)⟩
    rw [bytesOf_cons, Part.bytes, singleton_append, hlength, Nat.add_comm, drop_succ_cons,
      hdrop, hrest, drop_left]

theorem bytesOf_ne_nil (p : Part) (ps : List Part) : ∃ b bs, bytesOf (p :: ps) = b :: bs := by
  rcases p with c | b
  · obtain ⟨b, ts, henc, _⟩ := encodeChar_eq_cons c
    exact ⟨b, ts ++ bytesOf ps, by rw [bytesOf_cons, Part.bytes, henc, cons_append]⟩
  · exact ⟨b, bytesOf ps, rfl⟩

theorem lossyAux_bytesOf : ∀ (n : ℕ) (ps : List Part), (bytesOf ps).length ≤ n →
    (lossyAux n (bytesOf ps)).length ≤ ps.length ∧
      ((lossyAux n (bytesOf ps)).length = ps.length →
        lossyAux n (bytesOf ps) = ps.map Part.face)
  | n, [], _ => by cases n <;> simp [lossyAux, bytesOf]
  | 0, p :: ps, h => by
    obtain ⟨b, bs, hbytes⟩ := bytesOf_ne_nil p ps
    rw [hbytes, length_cons] at h
    omega
  | n + 1, p :: ps, h => by
    obtain ⟨b, bs, hbytes⟩ := bytesOf_ne_nil p ps
    obtain ⟨m, hm, hdrop, hface⟩ := nextChar_bytesOf p ps
    rw [hbytes] at hdrop hface h ⊢
    have hpos : 1 ≤ (nextChar (b :: bs)).2 := by
      obtain ⟨ts, _, _, hlength, _⟩ := nextChar_cases b bs
      omega
    have hle : (bytesOf (ps.drop m)).length ≤ n := by
      rw [← hdrop, length_drop]
      omega
    obtain ⟨hcount, hsame⟩ := lossyAux_bytesOf n (ps.drop m) hle
    rw [length_drop] at hcount hsame
    simp only [lossyAux, hdrop, length_cons, map_cons]
    refine ⟨by omega, fun heq => ?_⟩
    obtain rfl : m = 0 := by omega
    rw [hface rfl, hsame (by omega), drop_zero]

theorem lossy_bytesOf (ps : List Part) : (lossy (bytesOf ps)).length ≤ ps.length ∧
    ((lossy (bytesOf ps)).length = ps.length → lossy (bytesOf ps) = ps.map Part.face) :=
  lossyAux_bytesOf _ ps le_rfl

theorem lossyAux_encode : ∀ (text : List Char) (n : ℕ), (encode text).length ≤ n →
    lossyAux n (encode text) = text
  | [], n, _ => by cases n <;> rfl
  | c :: text, n, h => by
    obtain ⟨b, ts, henc, _⟩ := encodeChar_eq_cons c
    rcases n with _ | n
    · rw [encode_cons, henc, cons_append, length_cons] at h
      omega
    · have hnext : nextChar (encode (c :: text)) = (c, c.utf8Size) := by
        rw [nextChar, encode_cons, decodeChar_encode]
      have hdrop : (encode (c :: text)).drop c.utf8Size = encode text :=
        drop_left' (String.length_utf8EncodeChar c)
      have hle : (encode text).length ≤ n := by
        have hpos := c.utf8Size_pos
        rw [encode_cons, length_append, String.length_utf8EncodeChar] at h
        omega
      have hbytes : encode (c :: text) = b :: (ts ++ encode text) := by
        rw [encode_cons, henc, cons_append]
      rw [hbytes] at hnext hdrop ⊢
      rw [lossyAux, hnext, hdrop, lossyAux_encode text n hle]

@[simp] theorem lossy_encode (text : List Char) : lossy (encode text) = text :=
  lossyAux_encode text _ le_rfl

theorem take_encode : ∀ (text : List Char) (n : ℕ), ∃ s t bs, text = s ++ t ∧
    (encode text).take n = encode s ++ bs ∧ bs.length ≤ 3
  | [], _ => ⟨[], [], [], rfl, by simp, by simp⟩
  | c :: text, n => by
    have hlen := String.length_utf8EncodeChar c
    have hfour := c.utf8Size_le_four
    by_cases hn : c.utf8Size ≤ n
    · obtain ⟨s, t, bs, rfl, htake, hbs⟩ := take_encode text (n - c.utf8Size)
      refine ⟨c :: s, t, bs, rfl, ?_, hbs⟩
      rw [encode_cons, encode_cons, take_append, hlen, htake,
        take_of_length_le (by omega), append_assoc]
    · refine ⟨[], c :: text, (encode (c :: text)).take n, rfl, rfl, ?_⟩
      rw [length_take]
      omega

theorem size_le : ∀ text : List Char, size text ≤ 4 * text.length
  | [] => by simp
  | c :: text => by
    have hfour := c.utf8Size_le_four
    have ih := size_le text
    rw [size_cons, length_cons]
    omega

theorem size_of_lossy_take {text : List Char} {n : ℕ} (h : lossy ((encode text).take n) = text) :
    size text ≤ n + 12 := by
  obtain ⟨s, t, bs, rfl, htake, hbs⟩ := take_encode text n
  have hparts : encode s ++ bs = bytesOf (s.map .whole ++ bs.map .lone) := by
    simp [bytesOf, encode, flatMap_append, flatMap_map, Part.bytes]
  have hcount := (lossy_bytesOf (s.map .whole ++ bs.map .lone)).1
  rw [← hparts, ← htake, h, length_append, length_append, length_map,
    length_map] at hcount
  have hshort : (encode s).length ≤ n := by
    have hle := congrArg List.length htake
    rw [length_take, length_append] at hle
    omega
  have ht := size_le t
  rw [size_append]
  have hs : size s ≤ n := hshort
  omega

end Utf8
