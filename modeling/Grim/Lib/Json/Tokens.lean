import Mathlib.Data.List.TakeWhile
import Grim.Lib.Json.Grammar

/-!
# The tokens of a text

`tokens` cuts any text into structural characters, strings and words, a word being a longest run
of the characters that are none of these and not whitespace.  `Tidy` says which tokens a word may
be and which may stand next to each other; it looks at neighbours only and counts no brackets.
Every JSON text is tidy (`Text.tidy`).
-/

namespace Json

open List

inductive Token
  | mark (c : Char)
  | string
  | word (w : List Char)
deriving DecidableEq, Repr

def IsMark (c : Char) : Prop := c ∈ ['[', ']', '{', '}', ':', ',']

instance (c : Char) : Decidable (IsMark c) := by unfold IsMark; infer_instance

def IsWord (c : Char) : Prop := ¬ IsWs c ∧ ¬ IsMark c ∧ c ≠ '"'

instance (c : Char) : Decidable (IsWord c) := by unfold IsWord; infer_instance

/-- Where the scanner is: between tokens, or in a word or a string. -/
inductive Scan
  | between
  | word (w : List Char)
  | string
  | escape

namespace Scan

def start (c : Char) : Scan :=
  if IsWord c then .word [c] else if c = '"' then .string else .between

def next : Scan → Char → Scan
  | .between, c => start c
  | .word w, c => if IsWord c then .word (w ++ [c]) else start c
  | .string, c => if c = '"' then .between else if c = '\\' then .escape else .string
  | .escape, _ => .string

def emit : Scan → Char → List Token
  | .between, c => if IsMark c then [.mark c] else []
  | .word w, c => if IsWord c then [] else .word w :: if IsMark c then [.mark c] else []
  | .string, c => if c = '"' then [.string] else []
  | .escape, _ => []

def flush : Scan → List Token
  | .word w => [.word w]
  | _ => []

end Scan

def scan : Scan → List Char → List Token
  | m, [] => m.flush
  | m, c :: s => m.emit c ++ scan (m.next c) s

def tokens (s : List Char) : List Token := scan .between s

/-- A word does not run on into `s`. -/
def Bounded (s : List Char) : Prop := ∀ c ∈ s.head?, ¬ IsWord c

theorem Bounded.nil : Bounded [] := by simp [Bounded]

theorem bounded_cons {c : Char} (s : List Char) (h : ¬ IsWord c) : Bounded (c :: s) := by
  simpa [Bounded] using h

theorem not_isWord_of_ws {c : Char} (h : IsWs c) : ¬ IsWord c := fun hw => hw.1 h

theorem not_isWord_of_mark {c : Char} (h : IsMark c) : ¬ IsWord c := fun hw => hw.2.1 h

theorem not_isMark_of_ws {c : Char} (h : IsWs c) : ¬ IsMark c := by
  simp only [IsWs, mem_cons, not_mem_nil, or_false] at h
  rcases h with rfl | rfl | rfl | rfl <;> decide

theorem ne_quote_of_ws {c : Char} (h : IsWs c) : c ≠ '"' := by
  rintro rfl
  exact absurd h (by decide)

theorem ne_quote_of_mark {c : Char} (h : IsMark c) : c ≠ '"' := by
  rintro rfl
  exact absurd h (by decide)

@[simp] theorem tokens_nil : tokens [] = [] := rfl

theorem tokens_ws {c : Char} (s : List Char) (h : IsWs c) : tokens (c :: s) = tokens s := by
  simp [tokens, scan, Scan.emit, Scan.next, Scan.start, not_isMark_of_ws h, not_isWord_of_ws h,
    ne_quote_of_ws h]

theorem tokens_mark {c : Char} (s : List Char) (h : IsMark c) :
    tokens (c :: s) = .mark c :: tokens s := by
  simp [tokens, scan, Scan.emit, Scan.next, Scan.start, h, not_isWord_of_mark h,
    ne_quote_of_mark h]

theorem tokens_ws_append (s : List Char) : ∀ {w : List Char}, Ws w → tokens (w ++ s) = tokens s
  | [], _ => rfl
  | c :: w, h => by
    obtain ⟨hc, hw⟩ := forall_mem_cons.mp h
    rw [cons_append, tokens_ws _ hc, tokens_ws_append s hw]

theorem tokens_structural {c : Char} {p : List Char} (s : List Char) (h : IsMark c)
    (hp : Structural c p) : tokens (p ++ s) = .mark c :: tokens s := by
  obtain ⟨w, w', hw, hw', rfl⟩ := hp
  rw [append_assoc, tokens_ws_append _ hw, cons_append, tokens_mark _ h,
    tokens_ws_append _ hw']

theorem scan_word : ∀ (w v s : List Char), (∀ c ∈ w, IsWord c) → Bounded s →
    scan (.word v) (w ++ s) = .word (v ++ w) :: tokens s
  | [], v, [], _, _ => by simp [scan, Scan.flush]
  | [], v, c :: s, _, hs => by
    have hc : ¬ IsWord c := hs c rfl
    simp [scan, tokens, Scan.emit, Scan.next, hc]
  | c :: w, v, s, hw, hs => by
    obtain ⟨hc, hw⟩ := forall_mem_cons.mp hw
    have := scan_word w (v ++ [c]) s hw hs
    simpa [scan, Scan.emit, Scan.next, hc] using this

theorem tokens_word {w : List Char} (s : List Char) (hne : w ≠ []) (hw : ∀ c ∈ w, IsWord c)
    (hs : Bounded s) : tokens (w ++ s) = .word w :: tokens s := by
  rcases w with _ | ⟨c, w⟩
  · exact absurd rfl hne
  · obtain ⟨hc, hw⟩ := forall_mem_cons.mp hw
    have := scan_word w [c] s hw hs
    simpa [tokens, scan, Scan.emit, Scan.next, Scan.start, hc, hc.2.1] using this

theorem IsHex.ne_quote {c : Char} (h : IsHex c) : c ≠ '"' ∧ c ≠ '\\' := by
  constructor <;> (rintro rfl; exact absurd h (by decide))

theorem scan_chars {cs : List Char} (s : List Char) (h : Chars cs) :
    scan .string (cs ++ '"' :: s) = .string :: tokens s := by
  induction h with
  | nil => simp [scan, Scan.emit, Scan.next, tokens]
  | plain hc _ ih => simpa [scan, Scan.emit, Scan.next, hc.2.1, hc.2.2] using ih
  | escape hc _ ih => simpa [scan, Scan.emit, Scan.next] using ih
  | unicode ha hb hc hd _ ih =>
    simpa [scan, Scan.emit, Scan.next, ha.ne_quote, hb.ne_quote, hc.ne_quote, hd.ne_quote] using ih

theorem tokens_str {k : List Char} (s : List Char) (h : Str k) :
    tokens (k ++ s) = .string :: tokens s := by
  obtain ⟨cs, hcs, rfl⟩ := h
  have hq : ¬ IsWord '"' := by decide
  have hm : ¬ IsMark '"' := by decide
  have := scan_chars s hcs
  simpa [tokens, scan, Scan.emit, Scan.next, Scan.start, hq, hm] using this

theorem Structural.bounded {c : Char} {p : List Char} (s : List Char) (h : IsMark c)
    (hp : Structural c p) : Bounded (p ++ s) := by
  obtain ⟨w, w', hw, -, rfl⟩ := hp
  rcases w with _ | ⟨d, w⟩
  · exact bounded_cons _ (not_isWord_of_mark h)
  · exact bounded_cons _ (not_isWord_of_ws (hw d mem_cons_self))

theorem Ws.bounded {w : List Char} (h : Ws w) : Bounded w := by
  rcases w with _ | ⟨d, w⟩
  · exact .nil
  · exact bounded_cons _ (not_isWord_of_ws (h d mem_cons_self))

theorem isWord_of_isDigit {c : Char} (h : IsDigit c) : IsWord c := by
  obtain ⟨h0, h9⟩ := h
  refine ⟨fun hc => ?_, fun hc => ?_, fun hc => ?_⟩
  · simp only [IsWs, mem_cons, not_mem_nil, or_false] at hc
    rcases hc with rfl | rfl | rfl | rfl <;> exact absurd h0 (by decide)
  · simp only [IsMark, mem_cons, not_mem_nil, or_false] at hc
    rcases hc with rfl | rfl | rfl | rfl | rfl | rfl
    all_goals first | exact absurd h0 (by decide) | exact absurd h9 (by decide)
  · subst hc
    exact absurd h0 (by decide)

theorem Digits.isWord {s : List Char} (h : Digits s) : ∀ c ∈ s, IsWord c :=
  fun c hc => isWord_of_isDigit (h.2 c hc)

theorem Minus.isWord {s : List Char} (h : Minus s) : ∀ c ∈ s, IsWord c := by
  rcases h with rfl | rfl
  · simp
  · simpa using (by decide : IsWord '-')

theorem Int.isWord {s : List Char} (h : Int s) : ∀ c ∈ s, IsWord c := by
  rcases h with rfl | ⟨h, -⟩
  · simpa using (by decide : IsWord '0')
  · exact h.isWord

theorem Frac.isWord {s : List Char} (h : Frac s) : ∀ c ∈ s, IsWord c := by
  rcases h with rfl | ⟨ds, rfl, h⟩
  · simp
  · exact forall_mem_cons.mpr ⟨by decide, h.isWord⟩

theorem Exp.isWord {s : List Char} (h : Exp s) : ∀ c ∈ s, IsWord c := by
  rcases h with rfl | ⟨e, sign, ds, rfl, he, hsign, hds⟩
  · simp
  · refine forall_mem_cons.mpr ⟨?_, forall_mem_append.mpr ⟨?_, hds.isWord⟩⟩
    · simp only [mem_cons, not_mem_nil, or_false] at he
      rcases he with rfl | rfl <;> decide
    · rcases hsign with rfl | rfl | rfl
      · simp
      · simpa using (by decide : IsWord '-')
      · simpa using (by decide : IsWord '+')

theorem Int.ne_nil {s : List Char} (h : Int s) : s ≠ [] := by
  rcases h with rfl | ⟨h, -⟩
  · simp
  · exact h.1

theorem Number.isWord {s : List Char} (h : Number s) : s ≠ [] ∧ ∀ c ∈ s, IsWord c := by
  obtain ⟨m, i, f, e, rfl, hm, hi, hf, he⟩ := h
  refine ⟨by simp [hi.ne_nil], ?_⟩
  simp only [forall_mem_append]
  exact ⟨⟨⟨hm.isWord, hi.isWord⟩, hf.isWord⟩, he.isWord⟩

theorem literal_isWord {w : List Char} (h : w ∈ literals) : w ≠ [] ∧ ∀ c ∈ w, IsWord c := by
  simp only [literals, mem_cons, not_mem_nil, or_false] at h
  -- not by deciding over all characters
  have hall : ∀ w : List Char, w.all (fun c => decide (IsWord c)) = true → ∀ c ∈ w, IsWord c :=
    fun w hw c hc => of_decide_eq_true (all_eq_true.mp hw c hc)
  rcases h with rfl | rfl | rfl
  · exact ⟨by decide, hall _ (by decide)⟩
  · exact ⟨by decide, hall _ (by decide)⟩
  · exact ⟨by decide, hall _ (by decide)⟩

namespace Token

def ends : Token → Bool
  | .mark c => c = ']' ∨ c = '}'
  | .string => true
  | .word _ => true

def opens : Token → Bool
  | .mark c => c = '[' ∨ c = '{'
  | .string => true
  | .word _ => true

def isWord : Token → Bool
  | .word _ => true
  | _ => false

/-- `b` may come right after `a`: no word follows the end of a value, and no closing bracket a
comma or a colon. -/
def Fits (a b : Token) : Prop :=
  ¬ (a.ends ∧ b.isWord) ∧ ¬ (a ∈ [mark ',', mark ':'] ∧ b ∈ [mark ']', mark '}'])

instance (a b : Token) : Decidable (Fits a b) := by unfold Fits; infer_instance

theorem fits_mark {a : Token} (c : Char) (h : a.ends) : Fits a (.mark c) := by
  refine ⟨by simp [isWord], fun ⟨ha, _⟩ => ?_⟩
  simp only [mem_cons, not_mem_nil, or_false] at ha
  rcases ha with rfl | rfl <;> simp [ends] at h

theorem mark_fits {c : Char} {b : Token} (hc : c ∈ ['[', '{', ',', ':']) (h : b.opens) :
    Fits (.mark c) b := by
  refine ⟨fun ⟨hc', _⟩ => ?_, fun ⟨_, hb⟩ => ?_⟩
  · simp only [mem_cons, not_mem_nil, or_false] at hc
    rcases hc with rfl | rfl | rfl | rfl <;> simp [ends] at hc'
  · simp only [mem_cons, not_mem_nil, or_false] at hb
    rcases hb with rfl | rfl <;> simp [opens] at h

end Token

open Token

/-- Every word is a literal name or a number, and neighbours fit. -/
structure Neat (ts : List Token) : Prop where
  words : ∀ w, .word w ∈ ts → w ∈ literals ∨ Number w
  fits : ts.IsChain Fits

structure Tidy (ts : List Token) : Prop extends Neat ts where
  root : ∀ w rest, ts ≠ .word w :: .mark '}' :: rest

/-- What the tokens of a value, of elements and of members have in common. -/
structure Phrase (ts : List Token) : Prop extends Neat ts where
  head : ∃ t, ts.head? = some t ∧ t.opens
  last : ∃ t, ts.getLast? = some t ∧ t.ends

namespace Phrase

theorem word {w : List Char} (h : w ∈ literals ∨ Number w) : Phrase [.word w] where
  words v hv := by
    simp only [mem_singleton, Token.word.injEq] at hv
    exact hv ▸ h
  fits := by simp
  head := ⟨.word w, rfl, rfl⟩
  last := ⟨.word w, rfl, rfl⟩

theorem string : Phrase [.string] where
  words v hv := by simp at hv
  fits := by simp
  head := ⟨.string, rfl, rfl⟩
  last := ⟨.string, rfl, rfl⟩

theorem empty {a b : Char} (ha : a ∈ ['[', '{']) (hb : b ∈ [']', '}']) :
    Phrase [.mark a, .mark b] where
  words v hv := by simp at hv
  fits := by
    simp only [mem_cons, not_mem_nil, or_false] at ha hb
    rcases ha with rfl | rfl <;> rcases hb with rfl | rfl <;> simp [Fits, ends, isWord]
  head := ⟨.mark a, rfl, by simpa [opens] using ha⟩
  last := ⟨.mark b, rfl, by simpa [ends] using hb⟩

variable {ts us : List Token}

theorem snoc {b : Char} (h : Phrase ts) (hb : b ∈ [']', '}']) : Phrase (ts ++ [.mark b]) where
  words v hv := h.words v (by simpa using hv)
  fits := by
    obtain ⟨t, ht, hends⟩ := h.last
    refine isChain_append.mpr ⟨h.fits, by simp, fun x hx y hy => ?_⟩
    obtain rfl : t = x := by simpa [ht] using hx
    obtain rfl : Token.mark b = y := by simpa using hy
    exact fits_mark b hends
  head := by
    obtain ⟨t, ht, hopens⟩ := h.head
    exact ⟨t, by simp [head?_append, ht], hopens⟩
  last := ⟨.mark b, by simp, by simpa [ends] using hb⟩

theorem bracket {a b : Char} (ha : a ∈ ['[', '{']) (hb : b ∈ [']', '}']) (h : Phrase ts) :
    Phrase (.mark a :: (ts ++ [.mark b])) where
  words v hv := h.words v (by simpa using hv)
  fits := by
    obtain ⟨t, ht, hopens⟩ := (h.snoc hb).head
    refine isChain_cons.mpr ⟨fun y hy => ?_, (h.snoc hb).fits⟩
    obtain rfl : t = y := by simpa [ht] using hy
    refine mark_fits ?_ hopens
    simp only [mem_cons, not_mem_nil, or_false] at ha ⊢
    tauto
  head := ⟨.mark a, rfl, by simpa [opens] using ha⟩
  last := by
    obtain ⟨t, ht, hends⟩ := (h.snoc hb).last
    exact ⟨t, by rw [← singleton_append, getLast?_append, ht]; rfl, hends⟩

theorem join {c : Char} (hc : c ∈ [',', ':']) (h : Phrase ts) (h' : Phrase us) :
    Phrase (ts ++ .mark c :: us) where
  words v hv := by
    rcases mem_append.mp hv with hv | hv
    · exact h.words v hv
    · exact h'.words v (by simpa using hv)
  fits := by
    obtain ⟨t, ht, hends⟩ := h.last
    obtain ⟨u, hu, hopens⟩ := h'.head
    refine isChain_append.mpr ⟨h.fits, isChain_cons.mpr ⟨fun y hy => ?_, h'.fits⟩,
      fun x hx y hy => ?_⟩
    · obtain rfl : u = y := by simpa [hu] using hy
      refine mark_fits ?_ hopens
      simp only [mem_cons, not_mem_nil, or_false] at hc ⊢
      tauto
    · obtain rfl : t = x := by simpa [ht] using hx
      obtain rfl : Token.mark c = y := by simpa using hy
      exact fits_mark c hends
  head := by
    obtain ⟨t, ht, hopens⟩ := h.head
    exact ⟨t, by simp [head?_append, ht], hopens⟩
  last := by
    obtain ⟨u, hu, hends⟩ := h'.last
    exact ⟨u, by rw [← singleton_append, getLast?_append, getLast?_append, hu]; rfl,
      hends⟩

end Phrase

theorem Neat.tail {t : Token} {ts : List Token} (h : Neat (t :: ts)) : Neat ts where
  words w hw := h.words w (mem_cons_of_mem t hw)
  fits := (isChain_cons.mp h.fits).2

def first (s : List Char) : Option Char := (s.dropWhile fun c => IsWs c).head?

theorem first_append {w s : List Char} {c : Char} (hw : Ws w) (hc : ¬ IsWs c) :
    first (w ++ c :: s) = some c := by
  have : ∀ d ∈ w, decide (IsWs d) = true := fun d hd => by simpa using hw d hd
  rw [first, dropWhile_append_of_pos this]
  simp [hc]

/-- `s` does not begin with a word. -/
def NoWord (s : List Char) : Prop := ∀ c ∈ first s, ¬ IsWord c

/-- `s` does not begin with a closing bracket. -/
def NoCloser (s : List Char) : Prop := ∀ c ∈ first s, c ≠ ']' ∧ c ≠ '}'

theorem split_first : ∀ s : List Char, Ws s ∨ ∃ w c r, s = w ++ c :: r ∧ Ws w ∧ ¬ IsWs c
  | [] => .inl .nil
  | c :: s => by
    by_cases hc : IsWs c
    · rcases split_first s with hs | ⟨w, d, r, rfl, hw, hd⟩
      · exact .inl (.cons hc hs)
      · exact .inr ⟨c :: w, d, r, rfl, .cons hc hw, hd⟩
    · exact .inr ⟨[], c, s, rfl, .nil, hc⟩

theorem first_of_ws {s : List Char} (h : Ws s) : first s = none := by
  have : ∀ d ∈ s, decide (IsWs d) = true := fun d hd => by simpa using h d hd
  simp [first, dropWhile_eq_nil_iff.mpr this]

theorem tokens_isWord {c : Char} (s : List Char) (h : IsWord c) :
    tokens (c :: s) = .word (c :: s.takeWhile fun d => IsWord d)
      :: tokens (s.dropWhile fun d => IsWord d) := by
  have hall : ∀ d ∈ c :: s.takeWhile (fun d => IsWord d), IsWord d := by
    refine forall_mem_cons.mpr ⟨h, fun d hd => ?_⟩
    simpa using mem_takeWhile_imp hd
  have hbound : Bounded (s.dropWhile fun d => IsWord d) := by
    intro d hd
    have := head?_dropWhile_not (fun d => decide (IsWord d)) s
    rw [Option.mem_def] at hd
    simpa [hd] using this
  have := tokens_word _ (by simp) hall hbound
  rwa [cons_append, takeWhile_append_dropWhile] at this

variable {t : Token} {s : List Char}

theorem Neat.noWord (h : Neat (t :: tokens s)) (ht : t.ends) : NoWord s := by
  intro c hc hword
  rcases split_first s with hs | ⟨w, d, r, rfl, hw, hd⟩
  · simp [first_of_ws hs] at hc
  · obtain rfl : d = c := by simpa [first_append hw hd] using hc
    rw [tokens_ws_append _ hw, tokens_isWord r hword] at h
    have hfit := (isChain_cons_cons.mp h.fits).1
    exact hfit.1 ⟨ht, rfl⟩

theorem Neat.noCloser (h : Neat (t :: tokens s)) (ht : t ∈ [Token.mark ',', Token.mark ':']) :
    NoCloser s := by
  intro c hc
  rcases split_first s with hs | ⟨w, d, r, rfl, hw, hd⟩
  · simp [first_of_ws hs] at hc
  · obtain rfl : d = c := by simpa [first_append hw hd] using hc
    by_contra hclose
    have hd' : d = ']' ∨ d = '}' := by tauto
    have hmark : IsMark d := by rcases hd' with rfl | rfl <;> decide
    rw [tokens_ws_append _ hw, tokens_mark r hmark] at h
    have hfit := (isChain_cons_cons.mp h.fits).1
    exact hfit.2 ⟨ht, by rcases hd' with rfl | rfl <;> simp⟩

theorem Derives.phrase {σ : Symbol} {v : List Char} (h : Derives σ v) :
    ∃ ts, (∀ s, Bounded s → tokens (v ++ s) = ts ++ tokens s) ∧ Phrase ts := by
  induction h with
  | @literal w hw =>
    obtain ⟨hne, hall⟩ := literal_isWord hw
    exact ⟨[.word w], fun s hs => tokens_word s hne hall hs, .word (.inl hw)⟩
  | @number w hw =>
    exact ⟨[.word w], fun s hs => tokens_word s hw.isWord.1 hw.isWord.2 hs, .word (.inr hw)⟩
  | string hk => exact ⟨[.string], fun s _ => tokens_str s hk, .string⟩
  | emptyArray hb he =>
    refine ⟨[.mark '[', .mark ']'], fun s _ => ?_, .empty (by simp) (by simp)⟩
    rw [append_assoc, tokens_structural _ (by decide) hb, tokens_structural _ (by decide) he]
    rfl
  | @array b es e hb _ he ih =>
    obtain ⟨ts, hts, hp⟩ := ih
    refine ⟨.mark '[' :: (ts ++ [.mark ']']), fun s _ => ?_, hp.bracket (by simp) (by simp)⟩
    rw [append_assoc, append_assoc, tokens_structural _ (by decide) hb,
      hts _ (he.bounded s (by decide)), tokens_structural s (by decide) he]
    simp
  | emptyObject hb he =>
    refine ⟨[.mark '{', .mark '}'], fun s _ => ?_, .empty (by simp) (by simp)⟩
    rw [append_assoc, tokens_structural _ (by decide) hb, tokens_structural _ (by decide) he]
    rfl
  | @object b ms e hb _ he ih =>
    obtain ⟨ts, hts, hp⟩ := ih
    refine ⟨.mark '{' :: (ts ++ [.mark '}']), fun s _ => ?_, hp.bracket (by simp) (by simp)⟩
    rw [append_assoc, append_assoc, tokens_structural _ (by decide) hb,
      hts _ (he.bounded s (by decide)), tokens_structural s (by decide) he]
    simp
  | element _ ih => exact ih
  | @elements v p es _ hp _ ihv ihs =>
    obtain ⟨ts, hts, hpv⟩ := ihv
    obtain ⟨us, hus, hps⟩ := ihs
    refine ⟨ts ++ .mark ',' :: us, fun s hs => ?_, hpv.join (by simp) hps⟩
    rw [append_assoc, append_assoc, hts _ (hp.bounded _ (by decide)),
      tokens_structural _ (by decide) hp, hus s hs]
    simp
  | @member k p v hk hp _ ih =>
    obtain ⟨ts, hts, hpv⟩ := ih
    refine ⟨[.string] ++ .mark ':' :: ts, fun s hs => ?_, Phrase.string.join (by simp) hpv⟩
    rw [append_assoc, append_assoc, tokens_str _ hk, tokens_structural _ (by decide) hp,
      hts s hs]
    simp
  | @members k p v p' ms hk hp _ hp' _ ihv ihs =>
    obtain ⟨ts, hts, hpv⟩ := ihv
    obtain ⟨us, hus, hps⟩ := ihs
    refine ⟨([.string] ++ .mark ':' :: ts) ++ .mark ',' :: us, fun s hs => ?_,
      (Phrase.string.join (by simp) hpv).join (by simp) hps⟩
    rw [append_assoc, append_assoc, append_assoc, append_assoc,
      tokens_str _ hk, tokens_structural _ (by decide) hp, hts _ (hp'.bounded _ (by decide)),
      tokens_structural _ (by decide) hp', hus s hs]
    simp

theorem Derives.tokens_of_value {v : List Char} (h : Derives .value v) :
    (∃ w, ∀ s, Bounded s → tokens (v ++ s) = .word w :: tokens s)
      ∨ ∀ s w rest, tokens (v ++ s) ≠ .word w :: rest := by
  cases h with
  | literal hw =>
    obtain ⟨hne, hall⟩ := literal_isWord hw
    exact .inl ⟨v, fun s hs => tokens_word s hne hall hs⟩
  | number hw => exact .inl ⟨v, fun s hs => tokens_word s hw.isWord.1 hw.isWord.2 hs⟩
  | string hk =>
    right
    intro s w rest
    simp [tokens_str s hk]
  | emptyArray hb _ | array hb _ _ | emptyObject hb _ | object hb _ _ =>
    right
    intro s w rest
    simp only [append_assoc, tokens_structural _ (by decide) hb]
    simp

theorem Text.tidy {s : List Char} (h : Text s) : Tidy (tokens s) := by
  obtain ⟨w, v, w', hw, hv, hw', rfl⟩ := h
  have hend : tokens w' = [] := by simpa using tokens_ws_append [] hw'
  obtain ⟨ts, hts, hp⟩ := hv.phrase
  have heq : tokens (w ++ v ++ w') = ts := by
    rw [append_assoc, tokens_ws_append _ hw, hts _ hw'.bounded, hend, append_nil]
  refine ⟨heq ▸ hp.toNeat, fun u rest hu => ?_⟩
  rw [append_assoc, tokens_ws_append _ hw] at hu
  rcases hv.tokens_of_value with ⟨u', h⟩ | h
  · simp [h _ hw'.bounded, hend] at hu
  · exact h _ _ _ hu

end Json
