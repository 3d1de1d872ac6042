import Grim.Scheduler.Accounting

/-!
# First chunks in order of arrival

Requests of one priority have their first chunk in the order they came in as long as the entries
of `waiting` with no chunk yet stay in that order.  A stable sort keeps it, and so does the
admission loop, but for the requests behind a chunk under pressure, which it turns around, and for a
deferred request, which goes behind the ones it came before (`KeepsOrder`).
-/

namespace Grim.Scheduler

open List

/-- The requests of `l` with tokens to prefill that are in no output so far. -/
def unseen (seen : List ℕ) (l : List Request) : List Request :=
  l.filter fun r => r.id ∉ seen ∧ r.remaining ≠ 0

def inTurn (seen : List ℕ) (priority : ℤ) (l : List Request) : List Request :=
  (unseen seen l).filter (·.priority = priority)

section Unseen

variable {seen : List ℕ} {l l' : List Request} {r : Request} {id : ℕ} {p : ℤ}

theorem mem_unseen : r ∈ unseen seen l ↔ r ∈ l ∧ r.id ∉ seen ∧ r.remaining ≠ 0 := by
  simp [unseen]

theorem mem_inTurn : r ∈ inTurn seen p l ↔ r ∈ unseen seen l ∧ r.priority = p := by
  simp [inTurn]

@[simp] theorem unseen_append : unseen seen (l ++ l') = unseen seen l ++ unseen seen l' :=
  filter_append ..

@[simp] theorem unseen_reverse : unseen seen l.reverse = (unseen seen l).reverse :=
  filter_reverse ..

@[simp] theorem inTurn_append : inTurn seen p (l ++ l') = inTurn seen p l ++ inTurn seen p l' := by
  rw [inTurn, unseen_append, filter_append, inTurn, inTurn]

theorem unseen_cons : unseen seen (r :: l) = unseen seen [r] ++ unseen seen l :=
  unseen_append (l := [r])

theorem unseen_singleton_of_mem (h : r.id ∈ seen) : unseen seen [r] = [] := by
  simp [unseen, h]

theorem unseen_singleton_of_remaining (h : r.remaining = 0) : unseen seen [r] = [] := by
  simp [unseen, h]

theorem unseen_singleton (h : r.id ∉ seen) (hr : r.remaining ≠ 0) : unseen seen [r] = [r] := by
  simp [unseen, h, hr]

theorem unseen_concat (h : id ∉ ids (unseen seen l)) :
    unseen (seen ++ [id]) l = unseen seen l := by
  refine filter_congr fun r hr => ?_
  rw [decide_eq_decide, mem_append, not_or, mem_singleton]
  refine ⟨fun h => ⟨h.1.1, h.2⟩, fun ⟨hs, hrem⟩ => ⟨⟨hs, ?_⟩, hrem⟩⟩
  rintro rfl
  exact h (mem_map_of_mem (mem_unseen.mpr ⟨hr, hs, hrem⟩))

end Unseen

/-- With `n` sequences taken already, the loop comes to `r`, which has tokens to prefill, over the
requests `pre`. -/
structure Comes (c : AdmitCtx) (n : ℕ) (admitted pre : List Request) (r : Request)
    (post : List Request) : Prop where
  split : admitted = pre ++ r :: post
  left : r.remaining ≠ 0
  first : c.pressure → ∀ p ∈ pre, p.remaining = 0
  cap : n + pending pre < c.maxNumSeqs

/-- The chunk of `x` fits the budget. -/
def Fits (c : AdmitCtx) (n total : ℕ) (admitted : List Request) (x : Request) : Prop :=
  ∃ pre post, Comes c n admitted pre x post
    ∧ total + unspent pre + c.chunkSize x ≤ c.maxBatchedTokens

/-- A chunk before `x` overruns the budget, so that `x` is dropped. -/
def Drops (c : AdmitCtx) (n total : ℕ) (admitted : List Request) (x : Request) : Prop :=
  ∃ pre r post, Comes c n admitted pre r post ∧ x ∈ post
    ∧ c.maxBatchedTokens < total + unspent pre + c.chunkSize r

/-- Under pressure a chunk is prefilled, and then the rest of `admitted`, `post`, is handed back. -/
def TurnsAround (c : AdmitCtx) (n total : ℕ) (admitted post : List Request) : Prop :=
  c.pressure ∧ ∃ pre r, Comes c n admitted pre r post
    ∧ total + unspent pre + c.chunkSize r ≤ c.maxBatchedTokens

section Decidable

variable (c : AdmitCtx) (n total : ℕ) (admitted : List Request)

instance (pre : List Request) (r : Request) (post : List Request) :
    Decidable (Comes c n admitted pre r post) :=
  decidable_of_iff (admitted = pre ++ r :: post ∧ r.remaining ≠ 0
      ∧ (c.pressure → ∀ p ∈ pre, p.remaining = 0) ∧ n + pending pre < c.maxNumSeqs)
    ⟨fun ⟨h1, h2, h3, h4⟩ => ⟨h1, h2, h3, h4⟩, fun ⟨h1, h2, h3, h4⟩ => ⟨h1, h2, h3, h4⟩⟩

theorem exists_comes_iff {P : List Request → Request → List Request → Prop} :
    (∃ i : Fin admitted.length,
      Comes c n admitted (admitted.take i) (admitted.get i) (admitted.drop (i + 1))
        ∧ P (admitted.take i) (admitted.get i) (admitted.drop (i + 1)))
      ↔ ∃ pre r post, Comes c n admitted pre r post ∧ P pre r post := by
  refine ⟨fun ⟨i, hc, hP⟩ => ⟨_, _, _, hc, hP⟩, fun ⟨pre, r, post, hc, hP⟩ => ?_⟩
  obtain rfl := hc.split
  refine ⟨⟨pre.length, by simp⟩, ?_⟩
  simpa using ⟨hc, hP⟩

instance (x : Request) : Decidable (Fits c n total admitted x) :=
  decidable_of_iff _ <| (exists_comes_iff c n admitted (P := fun pre r _ => r = x
      ∧ total + unspent pre + c.chunkSize r ≤ c.maxBatchedTokens)).trans
    ⟨fun ⟨pre, _, post, hc, hx, hle⟩ => ⟨pre, post, hx ▸ hc, hx ▸ hle⟩,
      fun ⟨pre, post, hc, hle⟩ => ⟨pre, x, post, hc, rfl, hle⟩⟩

instance (x : Request) : Decidable (Drops c n total admitted x) :=
  decidable_of_iff _ <| exists_comes_iff c n admitted (P := fun pre r post => x ∈ post
    ∧ c.maxBatchedTokens < total + unspent pre + c.chunkSize r)

end Decidable

section Comes

variable {c : AdmitCtx} {n total : ℕ} {admitted pre post : List Request} {r q x : Request}

theorem Comes.cons (hr : c.pressure → r.remaining = 0)
    (h : Comes c (n + pending [r]) admitted pre q post) :
    Comes c n (r :: admitted) (r :: pre) q post where
  split := by rw [h.split, cons_append]
  left := h.left
  first := fun hp => forall_mem_cons.mpr ⟨hr hp, h.first hp⟩
  cap := by
    have := h.cap
    rw [pending_cons]
    omega

theorem Comes.uncons (h : Comes c n (r :: admitted) pre q post) :
    (pre = [] ∧ q = r ∧ post = admitted) ∨
      ∃ pre', pre = r :: pre' ∧ (c.pressure → r.remaining = 0)
        ∧ Comes c (n + pending [r]) admitted pre' q post := by
  obtain ⟨hsplit, hleft, hfirst, hcap⟩ := h
  cases pre with
  | nil =>
    obtain ⟨rfl, rfl⟩ := cons_eq_cons.mp hsplit
    exact .inl ⟨rfl, rfl, rfl⟩
  | cons p pre =>
    rw [cons_append] at hsplit
    obtain ⟨rfl, rfl⟩ := cons_eq_cons.mp hsplit
    rw [pending_cons] at hcap
    exact .inr ⟨pre, rfl, fun hp => hfirst hp r mem_cons_self, rfl, hleft,
      fun hp p hmem => hfirst hp p (mem_cons_of_mem _ hmem), by omega⟩

theorem Comes.mem (h : Comes c n admitted pre q post) (hx : x ∈ q :: post) : x ∈ admitted := by
  rw [h.split]
  exact mem_append_right _ hx

theorem Fits.uncons (h : Fits c n total (r :: admitted) x) :
    (x = r ∧ r.remaining ≠ 0 ∧ total + c.chunkSize r ≤ c.maxBatchedTokens) ∨
      (c.pressure → r.remaining = 0)
        ∧ Fits c (n + pending [r]) (total + r.remaining) admitted x := by
  obtain ⟨pre, post, hc, hle⟩ := h
  obtain ⟨rfl, rfl, rfl⟩ | ⟨pre, rfl, hr, hc'⟩ := hc.uncons
  · exact .inl ⟨rfl, hc.left, by simpa [unspent] using hle⟩
  · rw [unspent_cons] at hle
    exact .inr ⟨hr, pre, post, hc', by omega⟩

theorem Drops.uncons (h : Drops c n total (r :: admitted) x) :
    (r.remaining ≠ 0 ∧ c.maxBatchedTokens < total + c.chunkSize r) ∨
      (c.pressure → r.remaining = 0)
        ∧ Drops c (n + pending [r]) (total + r.remaining) admitted x := by
  obtain ⟨pre, q, post, hc, hx, hlt⟩ := h
  obtain ⟨rfl, rfl, rfl⟩ | ⟨pre, rfl, hr, hc'⟩ := hc.uncons
  · exact .inl ⟨hc.left, by simpa [unspent] using hlt⟩
  · rw [unspent_cons] at hlt
    exact .inr ⟨hr, pre, q, post, hc', hx, by omega⟩

theorem Drops.mem (h : Drops c n total (r :: admitted) x) : x ∈ admitted := by
  obtain ⟨pre, q, post, hc, hx, -⟩ := h
  obtain ⟨-, -, rfl⟩ | ⟨pre, -, -, hc'⟩ := hc.uncons
  · exact hx
  · exact hc'.mem (mem_cons_of_mem _ hx)

theorem not_fits_of_cap (h : c.maxNumSeqs ≤ n) : ¬ Fits c n total admitted x := by
  rintro ⟨pre, post, hc, -⟩
  have := hc.cap
  omega

theorem not_drops_of_cap (h : c.maxNumSeqs ≤ n) : ¬ Drops c n total admitted x := by
  rintro ⟨pre, r, post, hc, -⟩
  have := hc.cap
  omega

end Comes

/-- The loop from `admitted` and `w` to `w'`: of the requests with no chunk yet, `taken` get
theirs, and of the `rest` those of `back` are handed back. -/
structure Takes (c : AdmitCtx) (n total : ℕ) (admitted : List Request) (seen seen' : List ℕ)
    (w w' taken rest back : List Request) : Prop where
  split : unseen seen admitted = taken ++ rest
  waiting : unseen seen' w' = unseen seen w ++ back
  served : ∀ id ∈ seen', id ∈ seen ∨ id ∈ ids taken
  order : back.Sublist rest ∨ ∃ post, TurnsAround c n total admitted post
    ∧ rest = unseen seen post ∧ back = rest.reverse
  turned : ∀ x ∈ back, ¬ Fits c n total admitted x ∧ ¬ Drops c n total admitted x

section Takes

variable {c : AdmitCtx} {n total : ℕ} {admitted : List Request} {seen seen' : List ℕ}
  {w₀ w w' taken rest back : List Request} {r : Request}

theorem takes_full (h : c.maxNumSeqs ≤ n) :
    Takes c n total admitted seen seen w (w ++ admitted) [] (unseen seen admitted)
      (unseen seen admitted) where
  split := rfl
  waiting := unseen_append
  served := fun _ hid => .inl hid
  order := .inl (.refl _)
  turned := fun _ _ => ⟨not_fits_of_cap h, not_drops_of_cap h⟩

theorem Takes.place (hr : r.remaining = 0)
    (h : Takes c n total admitted seen seen' w w' taken rest back) :
    Takes c n total (r :: admitted) seen seen' w w' taken rest back where
  split := by rw [unseen_cons, unseen_singleton_of_remaining hr, nil_append, h.split]
  waiting := h.waiting
  served := h.served
  order := by
    have hpend : pending [r] = 0 := by simp [pending, hr]
    refine h.order.imp_right ?_
    rintro ⟨post, ⟨hp, pre, q, hc, hle⟩, hrest, hback⟩
    refine ⟨post, ⟨hp, r :: pre, q, Comes.cons (fun _ => hr) (by rwa [hpend]), ?_⟩, hrest, hback⟩
    rw [unspent_cons]
    omega
  turned := by
    have hpend : pending [r] = 0 := by simp [pending, hr]
    refine fun x hx => ⟨fun hf => ?_, fun hd => ?_⟩
    · obtain ⟨-, hne, -⟩ | ⟨-, hf⟩ := hf.uncons
      · exact hne hr
      · rw [hpend, hr] at hf
        exact (h.turned x hx).1 hf
    · obtain ⟨hne, -⟩ | ⟨-, hd⟩ := hd.uncons
      · exact hne hr
      · rw [hpend, hr] at hd
        exact (h.turned x hx).2 hd

theorem takes_over (hr : r.remaining ≠ 0) (hout : r.id ∉ ids (unseen seen admitted))
    (hover : c.maxBatchedTokens < total + c.chunkSize r) :
    Takes c n total (r :: admitted) seen seen w (w ++ [r]) [] (unseen seen (r :: admitted))
      (unseen seen [r]) where
  split := rfl
  waiting := unseen_append
  served := fun _ hid => .inl hid
  order := .inl <| (singleton_sublist.mpr mem_cons_self).filter _
  turned := by
    intro x hx
    obtain ⟨hx, hxs, hxr⟩ := mem_unseen.mp hx
    obtain rfl := mem_singleton.mp hx
    refine ⟨fun hf => ?_, fun hd => ?_⟩
    · obtain ⟨-, -, hle⟩ | ⟨-, pre, post, -, hle⟩ := hf.uncons
      · omega
      · have := chunkSize_le c x
        omega
    · exact hout (mem_map_of_mem (mem_unseen.mpr ⟨hd.mem, hxs, hxr⟩))

theorem takes_pressure (hr : r.remaining ≠ 0) (hp : c.pressure) (hcap : n < c.maxNumSeqs)
    (hfit : total + c.chunkSize r ≤ c.maxBatchedTokens)
    (hout : r.id ∉ ids (unseen seen admitted))
    (hw : unseen (seen ++ [r.id]) w' = unseen seen w ++ (unseen seen admitted).reverse) :
    Takes c n total (r :: admitted) seen (seen ++ [r.id]) w w' (unseen seen [r])
      (unseen seen admitted) (unseen seen admitted).reverse where
  split := unseen_cons
  waiting := hw
  served := by
    intro id hid
    rw [mem_append, mem_singleton] at hid
    by_cases hs : r.id ∈ seen
    · exact .inl (hid.elim (fun h => h) fun h => h ▸ hs)
    · rw [unseen_singleton hs hr]
      exact hid.imp_right fun h => mem_singleton.mpr h
  order := by
    refine .inr ⟨admitted, ⟨hp, [], r, ⟨rfl, hr, ?_, ?_⟩, ?_⟩, rfl, rfl⟩
    · exact fun _ _ hmem => absurd hmem not_mem_nil
    · simpa [pending] using hcap
    · simpa [unspent] using hfit
  turned := by
    intro x hx
    rw [mem_reverse] at hx
    refine ⟨fun hf => ?_, fun hd => ?_⟩
    · obtain ⟨rfl, -, -⟩ | ⟨hzero, -⟩ := hf.uncons
      · exact hout (mem_map_of_mem hx)
      · exact hr (hzero hp)
    · obtain ⟨-, hover⟩ | ⟨hzero, -⟩ := hd.uncons
      · omega
      · exact hr (hzero hp)

theorem Takes.prefill (hr : r.remaining ≠ 0) (hp : ¬ c.pressure)
    (hfit : total + c.chunkSize r ≤ c.maxBatchedTokens)
    (hadm : unseen (seen ++ [r.id]) admitted = unseen seen admitted)
    (hw : unseen (seen ++ [r.id]) w = unseen seen w₀)
    (h : Takes c (n + 1) (total + r.remaining) admitted (seen ++ [r.id]) seen' w w' taken rest
      back) :
    Takes c n total (r :: admitted) seen seen' w₀ w' (unseen seen [r] ++ taken) rest back where
  split := by rw [unseen_cons, ← hadm, h.split, append_assoc]
  waiting := by rw [h.waiting, hw]
  served := by
    intro id hid
    rw [ids, map_append, mem_append]
    rcases h.served id hid with hid | hid
    · rw [mem_append, mem_singleton] at hid
      by_cases hs : r.id ∈ seen
      · exact .inl (hid.elim (fun h => h) fun h => h ▸ hs)
      · rw [unseen_singleton hs hr]
        exact hid.imp_right fun h => .inl (mem_singleton.mpr h)
    · exact .inr (.inr hid)
  order := h.order.imp_right fun ⟨_, ⟨hpr, _⟩, _⟩ => absurd hpr hp
  turned := by
    have hpend : pending [r] = 1 := by simp [pending, hr]
    have hback : ∀ x ∈ back, x.id ≠ r.id := by
      intro x hx heq
      have hrest : x ∈ rest := by
        obtain hsub | ⟨-, ⟨hpr, -⟩, -⟩ := h.order
        · exact hsub.subset hx
        · exact absurd hpr hp
      have hmem : x ∈ unseen (seen ++ [r.id]) admitted := by
        rw [h.split]
        exact mem_append_right _ hrest
      refine (mem_unseen.mp hmem).2.1 ?_
      rw [heq]
      exact mem_append_right _ (mem_singleton_self _)
    refine fun x hx => ⟨fun hf => ?_, fun hd => ?_⟩
    · obtain ⟨rfl, -⟩ | ⟨-, hf⟩ := hf.uncons
      · exact hback x hx rfl
      · rw [hpend] at hf
        exact (h.turned x hx).1 hf
    · obtain ⟨-, hover⟩ | ⟨-, hd⟩ := hd.uncons
      · omega
      · rw [hpend] at hd
        exact (h.turned x hx).2 hd

theorem Takes.back_subset (h : Takes c n total admitted seen seen' w w' taken rest back) :
    back ⊆ rest := by
  obtain hsub | ⟨post, -, -, rfl⟩ := h.order
  · exact hsub.subset
  · exact fun x hx => mem_reverse.mp hx

end Takes

theorem admitLoop_full (c : AdmitCtx) : ∀ (admitted : List Request) {st : AdmitState},
    c.maxNumSeqs ≤ c.currentRunning + st.prefillIds.length →
    admitLoop c admitted st = { st with waiting := st.waiting ++ admitted }
  | [], st, _ => by rw [admitLoop, append_nil]
  | r :: admitted, st, h => by
    have hput : c.maxNumSeqs ≤ c.currentRunning + (st.putBack r).prefillIds.length := h
    rw [admitLoop, if_pos h, admitLoop_full c admitted hput]
    simp [AdmitState.putBack]

theorem unseen_requeue {seen : List ℕ} {r : Request} (st : AdmitState) (chunk : ℕ)
    (h : r.id ∈ seen) : unseen seen (st.requeue r chunk).waiting = unseen seen st.waiting := by
  unfold AdmitState.requeue
  split_ifs
  · have hrest : unseen seen [{ r with consumedTokens := r.consumedTokens + chunk }] = [] :=
      unseen_singleton_of_mem h
    show unseen seen (st.waiting ++ [_]) = _
    rw [unseen_append, hrest, append_nil]
  · rfl

theorem admitLoop_takes (c : AdmitCtx) (hd : c.decodeDeferredPrefill = false) (seen : List ℕ) :
    ∀ (admitted : List Request) (st : AdmitState),
      (ids (unseen (seen ++ st.prefillIds) (admitted ++ st.waiting))).Nodup →
      ∃ taken rest back, Takes c (c.currentRunning + st.prefillIds.length) st.totalPrefill admitted
        (seen ++ st.prefillIds) (seen ++ (admitLoop c admitted st).prefillIds)
        st.waiting (admitLoop c admitted st).waiting taken rest back
  | [], st, _ => by
    refine ⟨[], [], [], rfl, (append_nil _).symm, fun _ hid => .inl hid, .inl (.refl _), ?_⟩
    exact fun _ hx => absurd hx not_mem_nil
  | r :: admitted, st, hnodup => by
    by_cases hcap : c.maxNumSeqs ≤ c.currentRunning + st.prefillIds.length
    · rw [admitLoop_full c _ hcap]
      exact ⟨_, _, _, takes_full hcap⟩
    have ih := admitLoop_takes c hd seen admitted
    have htail : (ids (unseen (seen ++ st.prefillIds) (admitted ++ st.waiting))).Nodup :=
      hnodup.sublist ((List.Sublist.filter _ (sublist_cons_self _ _)).map _)
    -- a request with no chunk yet has no other entry
    have hout : r.remaining ≠ 0 →
        r.id ∉ ids (unseen (seen ++ st.prefillIds) (admitted ++ st.waiting)) := by
      intro hr
      by_cases hs : r.id ∈ seen ++ st.prefillIds
      · intro hmem
        obtain ⟨x, hx, heq⟩ := mem_map.mp hmem
        exact (mem_unseen.mp hx).2.1 (heq ▸ hs)
      · rw [cons_append, unseen_cons, unseen_singleton hs hr] at hnodup
        exact (nodup_cons.mp hnodup).1
    have hsplit : r.remaining ≠ 0 →
        r.id ∉ ids (unseen (seen ++ st.prefillIds) admitted)
          ∧ r.id ∉ ids (unseen (seen ++ st.prefillIds) st.waiting) := by
      intro hr
      have := hout hr
      rwa [unseen_append, ids, map_append, mem_append, not_or] at this
    rw [admitLoop, if_neg hcap, hd, if_neg Bool.false_ne_true]
    split_ifs with hzero hover hp
    · obtain ⟨taken, rest, back, h⟩ := ih (st.place r) htail
      exact ⟨taken, rest, back, h.place hzero⟩
    · exact ⟨_, _, _, takes_over hzero (hsplit hzero).1 hover⟩
    · have hself : r.id ∈ seen ++ st.prefillIds ++ [r.id] :=
        mem_append_right _ (mem_singleton_self _)
      simp only [requeue_prefillIds, prefill_prefillIds]
      rw [← append_assoc]
      refine ⟨_, _, _, takes_pressure hzero hp (not_le.mp hcap) (not_lt.mp hover)
        (hsplit hzero).1 ?_⟩
      rw [unseen_requeue _ _ hself]
      show unseen _ (st.waiting ++ admitted.reverse) = _
      rw [unseen_append, unseen_reverse, unseen_concat (hsplit hzero).1,
        unseen_concat (hsplit hzero).2]
    · set st' := (st.prefill r (c.chunkSize r)).requeue r (c.chunkSize r) with hst'
      have hpre : seen ++ st'.prefillIds = seen ++ st.prefillIds ++ [r.id] := by
        rw [hst', requeue_prefillIds, prefill_prefillIds, append_assoc]
      have hwait : unseen (seen ++ st.prefillIds ++ [r.id]) st'.waiting
          = unseen (seen ++ st.prefillIds) st.waiting := by
        rw [hst', unseen_requeue _ _ (mem_append_right _ (mem_singleton_self _))]
        exact unseen_concat (hsplit hzero).2
      have hadm := unseen_concat (hsplit hzero).1
      have hn : c.currentRunning + st'.prefillIds.length
          = c.currentRunning + st.prefillIds.length + 1 := by
        rw [hst', requeue_prefillIds, prefill_prefillIds, length_append, length_singleton,
          Nat.add_assoc]
      have ht : st'.totalPrefill = st.totalPrefill + r.remaining := by
        rw [hst', requeue_totalPrefill, prefill_totalPrefill, chunkSize_of_not_pressure hp]
      obtain ⟨taken, rest, back, h⟩ := ih st' (by
        rw [hpre, unseen_append, hadm, hwait, ← unseen_append]
        exact htail)
      rw [hpre, hn, ht] at h
      exact ⟨_, _, _, h.prefill hzero hp (not_lt.mp hover) hadm hwait⟩

theorem admitLoop_served (c : AdmitCtx) (seen : List ℕ) (admitted : List Request)
    (st : AdmitState) (h : ∀ r ∈ st.running, r.id ∈ seen ++ st.prefillIds ∨ r.remaining = 0) :
    ∀ r ∈ (admitLoop c admitted st).running,
      r.id ∈ seen ++ (admitLoop c admitted st).prefillIds ∨ r.remaining = 0 := by
  have hfill : ∀ (r : Request) (st : AdmitState),
      (∀ e ∈ st.running, e.id ∈ seen ++ st.prefillIds ∨ e.remaining = 0) →
      ∀ e ∈ (st.prefill r (c.chunkSize r)).running,
        e.id ∈ seen ++ (st.prefill r (c.chunkSize r)).prefillIds ∨ e.remaining = 0 := by
    intro r st h e he
    rw [prefill_prefillIds, ← append_assoc]
    rcases mem_setRunning he with rfl | he
    · exact .inl (mem_append_right _ (mem_singleton_self _))
    · exact (h e he).imp_left (mem_append_left _)
  refine admitLoop_invariant c (I := fun _ st => ∀ r ∈ st.running,
      r.id ∈ seen ++ st.prefillIds ∨ r.remaining = 0)
    (fun _ _ _ h => h) (fun r _ st hzero h e he => ?_) (fun _ _ _ h => h)
    (fun r _ st _ h => ?_) (fun r _ st _ h => ?_) h
  · rcases mem_setRunning he with rfl | he
    · exact .inr hzero
    · exact h e he
  all_goals
    simp only [requeue_running, requeue_prefillIds]
    exact hfill r st h

theorem inTurn_sortQueues {s : Scheduler} (hmode : s.determinismMode = .relaxed) (seen : List ℕ)
    (p : ℤ) : inTurn seen p s.sortQueues.waiting = inTurn seen p s.waiting := by
  unfold sortQueues
  rw [hmode]
  dsimp only
  split_ifs
  · rfl
  · set sorted := s.waiting.insertionSort (fun a b => b.priority ≤ a.priority)
    have hperm : sorted.Perm s.waiting := perm_insertionSort _ _
    have hsub : (inTurn seen p s.waiting).Sublist sorted := by
      refine sublist_insertionSort ?_ (filter_sublist.trans filter_sublist)
      refine pairwise_of_forall_mem_list fun x hx y hy => ?_
      rw [(mem_inTurn.mp hx).2, (mem_inTurn.mp hy).2]
    have hself : inTurn seen p (inTurn seen p s.waiting) = inTurn seen p s.waiting := by
      have hall : unseen seen (inTurn seen p s.waiting) = inTurn seen p s.waiting := by
        refine filter_eq_self.mpr fun r hr => decide_eq_true ?_
        exact (mem_unseen.mp (mem_inTurn.mp hr).1).2
      rw [inTurn, hall]
      exact filter_eq_self.mpr fun r hr => decide_eq_true (mem_inTurn.mp hr).2
    refine (List.Sublist.eq_of_length ?_ ?_).symm
    · rw [← hself]
      exact (hsub.filter _).filter _
    · exact ((hperm.filter _).filter _).length_eq.symm

theorem admitWaiting_cases (admission : AdmissionController) (est : Throughput) (backlog : ℕ) :
    ∀ l : List Request, (admitWaiting admission est backlog l).2 = []
        ∧ (admitWaiting admission est backlog l).1 = l
      ∨ ∃ d rest, l = (admitWaiting admission est backlog l).1 ++ d :: rest
        ∧ (admitWaiting admission est backlog l).2 = rest ++ [d]
  | [] => .inl ⟨rfl, rfl⟩
  | r :: l => by
    have ih := admitWaiting_cases admission est backlog l
    unfold admitWaiting
    cases admission.admits est r backlog with
    | admitted =>
      rcases ih with ⟨hleft, hadm⟩ | ⟨d, rest, hadm, hleft⟩
      · exact .inl ⟨hleft, congrArg (r :: ·) hadm⟩
      · exact .inr ⟨d, rest, congrArg (r :: ·) hadm, hleft⟩
    | deferred => exact .inr ⟨r, l, rfl, rfl⟩

theorem beginPass_front {s : Scheduler} (hmode : s.determinismMode = .relaxed) {seen : List ℕ}
    (hswapped : ∀ r ∈ s.swapped, r.id ∈ seen ∨ r.remaining = 0) (tick : Tick) :
    ∃ behind, (∀ p, inTurn seen p ((s.beginPass tick).admitted ++ behind)
        = inTurn seen p s.waiting)
      ∧ (behind = [] ∧ (s.beginPass tick).sched.waiting = []
        ∨ ∃ d rest, behind = d :: rest ∧ (s.beginPass tick).sched.waiting = rest ++ [d]) := by
  obtain ⟨admission, backlog, hq⟩ := s.beginPass_queue tick
  obtain ⟨hadm, hleft⟩ := Prod.mk.inj hq
  have hback : ∀ p, inTurn seen p (s.returning tick ++ s.sortQueues.waiting)
      = inTurn seen p s.waiting := by
    intro p
    have hnone : inTurn seen p (s.returning tick) = [] := by
      refine eq_nil_iff_forall_not_mem.mpr fun r hr => ?_
      obtain ⟨hmem, hs, hrem⟩ := mem_unseen.mp (mem_inTurn.mp hr).1
      exact (hswapped r (mem_returning.mp hmem).2.1).elim hs hrem
    rw [inTurn_append, hnone, nil_append, inTurn_sortQueues hmode]
  rcases admitWaiting_cases admission tick.throughput backlog
    (s.returning tick ++ s.sortQueues.waiting) with ⟨hnil, hall⟩ | ⟨d, rest, hall, hnil⟩
  · refine ⟨[], fun p => ?_, .inl ⟨rfl, hleft.trans hnil⟩⟩
    rw [append_nil, hadm, hall, hback]
  · refine ⟨d :: rest, fun p => ?_, .inr ⟨d, rest, rfl, hleft.trans hnil⟩⟩
    rw [hadm, ← hall, hback]

theorem beginPass_unready {s : Scheduler} (h : s.readiness = none) (tick : Tick) :
    (s.beginPass tick).ctx.decodeDeferredPrefill = false
      ∧ (s.beginPass tick).sched.readiness = none
      ∧ (s.beginPass tick).sched.determinismMode = s.determinismMode := by
  have hsort : s.sortQueues.readiness = none
      ∧ s.sortQueues.determinismMode = s.determinismMode := by
    unfold sortQueues
    split
    · exact ⟨h, rfl⟩
    · split_ifs <;> exact ⟨h, rfl⟩
  have hswap : ∀ p, (s.sortQueues.swapIn p).readiness = none
      ∧ (s.sortQueues.swapIn p).determinismMode = s.determinismMode := by
    intro p
    unfold swapIn
    split_ifs <;> exact hsort
  unfold beginPass
  simp only []
  generalize s.sortQueues.pressureActive tick = pressure
  generalize s.sortQueues.totalRunningTokens = total
  generalize (admitWaiting _ tick.throughput _ (s.sortQueues.swapIn pressure).waiting).2 = left
  have hpre : (preempt pressure total { s.sortQueues.swapIn pressure with
      waiting := left }).1.readiness = none ∧ (preempt pressure total
        { s.sortQueues.swapIn pressure with waiting := left }).1.determinismMode
          = s.determinismMode := by
    obtain hp | ⟨v, running, -, -, -, hp⟩ := preempt_cases pressure total
      { s.sortQueues.swapIn pressure with waiting := left } <;>
    · rw [hp]
      exact hswap pressure
  unfold deferPrefill
  rw [hpre.1]
  exact ⟨rfl, hpre⟩

/-- With the ids `seen` in earlier outputs, the pass keeps the requests of one priority in order: a
deferred one has none behind it; of what is handed back none goes behind one left over by a
deferral, nor, under pressure, behind one that came later. -/
structure KeepsOrder (seen : List ℕ) (s : Scheduler) (tick : Tick) : Prop where
  deferred : ∀ d ∈ (s.beginPass tick).sched.waiting.getLast?, d.id ∉ seen → d.remaining ≠ 0 →
    inTurn seen d.priority (s.beginPass tick).sched.waiting.dropLast = []
  handedBack : ∀ x ∈ unseen seen (s.beginPass tick).admitted,
    ¬ Fits (s.beginPass tick).ctx (s.beginPass tick).ctx.currentRunning 0
      (s.beginPass tick).admitted x →
    ¬ Drops (s.beginPass tick).ctx (s.beginPass tick).ctx.currentRunning 0
      (s.beginPass tick).admitted x →
    inTurn seen x.priority (s.beginPass tick).sched.waiting = []
  turnedAround : ∀ post, TurnsAround (s.beginPass tick).ctx
    (s.beginPass tick).ctx.currentRunning 0 (s.beginPass tick).admitted post →
    (unseen seen post).Pairwise (·.priority ≠ ·.priority)

instance (c : AdmitCtx) (n total : ℕ) (admitted : List Request) (P : List Request → Prop)
    [DecidablePred P] : Decidable (∀ post, TurnsAround c n total admitted post → P post) :=
  decidable_of_iff (c.pressure → ¬ ∃ i : Fin admitted.length,
    Comes c n admitted (admitted.take i) (admitted.get i) (admitted.drop (i + 1))
      ∧ total + unspent (admitted.take i) + c.chunkSize (admitted.get i) ≤ c.maxBatchedTokens
      ∧ ¬ P (admitted.drop (i + 1))) <| by
    rw [exists_comes_iff c n admitted (P := fun pre r post =>
      total + unspent pre + c.chunkSize r ≤ c.maxBatchedTokens ∧ ¬ P post)]
    refine ⟨fun h post ⟨hp, pre, r, hc, hle⟩ => ?_, fun h hp ⟨pre, r, post, hc, hle, hno⟩ => ?_⟩
    · by_contra hno
      exact h hp ⟨pre, r, post, hc, hle, hno⟩
    · exact hno (h post ⟨hp, pre, r, hc, hle⟩)

instance (seen : List ℕ) (s : Scheduler) (tick : Tick) : Decidable (KeepsOrder seen s tick) :=
  decidable_of_iff ((∀ d ∈ (s.beginPass tick).sched.waiting.getLast?, d.id ∉ seen →
      d.remaining ≠ 0 → inTurn seen d.priority (s.beginPass tick).sched.waiting.dropLast = [])
    ∧ (∀ x ∈ unseen seen (s.beginPass tick).admitted,
      ¬ Fits (s.beginPass tick).ctx (s.beginPass tick).ctx.currentRunning 0
        (s.beginPass tick).admitted x →
      ¬ Drops (s.beginPass tick).ctx (s.beginPass tick).ctx.currentRunning 0
        (s.beginPass tick).admitted x →
      inTurn seen x.priority (s.beginPass tick).sched.waiting = [])
    ∧ ∀ post, TurnsAround (s.beginPass tick).ctx (s.beginPass tick).ctx.currentRunning 0
      (s.beginPass tick).admitted post →
      (unseen seen post).Pairwise (·.priority ≠ ·.priority))
    ⟨fun ⟨h1, h2, h3⟩ => ⟨h1, h2, h3⟩, fun ⟨h1, h2, h3⟩ => ⟨h1, h2, h3⟩⟩

theorem filter_priority_reverse {l : List Request} (h : l.Pairwise (·.priority ≠ ·.priority))
    (p : ℤ) : l.reverse.filter (·.priority = p) = l.filter (·.priority = p) := by
  have hone : (l.filter (·.priority = p)).Pairwise (·.priority ≠ ·.priority) := h.filter _
  have hmem : ∀ x ∈ l.filter (·.priority = p), x.priority = p := by
    intro x hx
    simpa using (mem_filter.mp hx).2
  rw [filter_reverse]
  generalize l.filter (·.priority = p) = m at hone hmem
  match m, hone, hmem with
  | [], _, _ => rfl
  | [x], _, _ => rfl
  | x :: y :: m, hone, hmem =>
    have heq : x.priority = y.priority :=
      (hmem x mem_cons_self).trans (hmem y (mem_cons_of_mem _ mem_cons_self)).symm
    exact absurd heq ((pairwise_cons.mp hone).1 y mem_cons_self)

theorem Takes.back_sublist {s : Scheduler} {tick : Tick} {seen seen' : List ℕ}
    {w w' taken rest back : List Request}
    (h : Takes (s.beginPass tick).ctx (s.beginPass tick).ctx.currentRunning 0
      (s.beginPass tick).admitted seen seen' w w' taken rest back)
    (hok : KeepsOrder seen s tick) (p : ℤ) :
    (back.filter (·.priority = p)).Sublist (rest.filter (·.priority = p)) := by
  obtain hsub | ⟨post, hturn, rfl, rfl⟩ := h.order
  · exact hsub.filter _
  · rw [filter_priority_reverse (hok.turnedAround post hturn)]

theorem KeepsOrder.left {seen : List ℕ} {s : Scheduler} {tick : Tick} (h : KeepsOrder seen s tick)
    {behind : List Request}
    (hb : behind = [] ∧ (s.beginPass tick).sched.waiting = []
      ∨ ∃ d rest, behind = d :: rest ∧ (s.beginPass tick).sched.waiting = rest ++ [d]) (p : ℤ) :
    (inTurn seen p (s.beginPass tick).sched.waiting).Sublist (inTurn seen p behind) := by
  obtain ⟨rfl, hw⟩ | ⟨d, rest, rfl, hw⟩ := hb
  · rw [hw]
  · have hd := h.deferred d (by rw [hw, getLast?_concat]; rfl)
    rw [hw, dropLast_concat] at hd
    have hcons : inTurn seen p (d :: rest) = inTurn seen p [d] ++ inTurn seen p rest :=
      inTurn_append (l := [d])
    rw [hw, inTurn_append, hcons]
    by_cases hmem : d ∈ inTurn seen p [d]
    · obtain ⟨hun, rfl⟩ := mem_inTurn.mp hmem
      obtain ⟨-, hs, hrem⟩ := mem_unseen.mp hun
      rw [hd hs hrem, append_nil]
      exact List.Sublist.refl _
    · have hnil : inTurn seen p [d] = [] := by
        refine eq_nil_iff_forall_not_mem.mpr fun x hx => hmem ?_
        have hxd := mem_singleton.mp (mem_unseen.mp (mem_inTurn.mp hx).1).1
        rwa [hxd] at hx
      rw [hnil, append_nil, nil_append]

/-- A run's scheduler, the requests in the order they were enqueued, and the ids each pass put
out. -/
structure Turns where
  history : History
  arrivals : List Request
  outputs : List (List ℕ)

namespace Turns

/-- A run on `s`. -/
def start (s : Scheduler) : Turns := ⟨⟨s, []⟩, [], []⟩

variable (a : Turns)

abbrev sched : Scheduler := a.history.sched

def step (call : Call) : Option Turns :=
  (a.history.step call).map fun h =>
    match call with
    | .enqueue r => ⟨h, a.arrivals ++ [r], a.outputs⟩
    | .schedule tick => ⟨h, a.arrivals, a.outputs ++ [(a.sched.schedule tick).2.prefillIds]⟩
    | _ => ⟨h, a.arrivals, a.outputs⟩

def seen : List ℕ := a.outputs.flatten

/-- The first pass that put `id` out. -/
def firstPass (id : ℕ) : Option ℕ := a.outputs.findIdx? (id ∈ ·)

/-- Of two requests of one priority, the later one is not put out by an earlier pass, and once it
is, the earlier one does not wait for its first chunk any more. -/
structure InOrder : Prop where
  first : ∀ x y, [x, y].Sublist a.arrivals → x.priority = y.priority →
    ∀ i j, a.firstPass x.id = some i → a.firstPass y.id = some j → i ≤ j
  waits : ∀ x y, [x, y].Sublist a.arrivals → x.priority = y.priority → y.id ∈ a.seen →
    x ∉ unseen a.seen a.sched.waiting

/-- `enqueue` and `schedule`. -/
def Feeds (_ : Turns) : Call → Prop
  | .enqueue _ | .schedule _ => True
  | .pause _ | .resume _ | .finish _ | .retune .. => False

def FeedsInOrder : Call → Prop
  | .enqueue _ => True
  | .schedule tick => KeepsOrder a.seen a.sched tick
  | .pause _ | .resume _ | .finish _ | .retune .. => False

instance (a : Turns) (call : Call) : Decidable (a.Feeds call) :=
  match call with
  | .enqueue _ | .schedule _ => inferInstanceAs (Decidable True)
  | .pause _ | .resume _ | .finish _ | .retune .. => inferInstanceAs (Decidable False)

instance (call : Call) : Decidable (a.FeedsInOrder call) :=
  match call with
  | .enqueue _ => inferInstanceAs (Decidable True)
  | .schedule tick => inferInstanceAs (Decidable (KeepsOrder a.seen a.sched tick))
  | .pause _ | .resume _ | .finish _ | .retune .. => inferInstanceAs (Decidable False)

structure Relaxed (s : Scheduler) : Prop where
  idle : Idle s
  mode : s.determinismMode = .relaxed
  unready : s.readiness = none

/-- The invariant: entries with no chunk yet are in `waiting` only, those of one priority in order
of arrival, and none came before one of its priority that has been put out. -/
structure Ordered (a : Turns) : Prop where
  mode : a.sched.determinismMode = .relaxed
  unready : a.sched.readiness = none
  arrived : ∀ id, id ∈ a.history.enqueued ↔ id ∈ ids a.arrivals
  nodup : (ids a.arrivals).Nodup
  tracked : ∀ id, Tracked a.sched id → id ∈ a.history.enqueued
  output : ∀ id ∈ a.seen, id ∈ a.history.enqueued
  served : ∀ r ∈ a.sched.running ++ a.sched.swapped, r.id ∈ a.seen ∨ r.remaining = 0
  order : ∀ p, (inTurn a.seen p a.sched.waiting).Sublist a.arrivals
  behind : ∀ x ∈ unseen a.seen a.sched.waiting, ∀ y ∈ a.arrivals, y.id ∈ a.seen →
    x.priority = y.priority → ¬ [x, y].Sublist a.arrivals
  first : ∀ x y, [x, y].Sublist a.arrivals → x.priority = y.priority →
    ∀ i j, a.firstPass x.id = some i → a.firstPass y.id = some j → i ≤ j

variable {a} {a' : Turns} {call : Call}

theorem mem_seen {id : ℕ} : id ∈ a.seen ↔ ∃ i, a.firstPass id = some i := by
  rw [seen, firstPass, ← Option.isSome_iff_exists, findIdx?_isSome, any_eq_true,
    mem_flatten]
  simp

theorem ordered_start {s : Scheduler} (h : Relaxed s) : (start s).Ordered := by
  obtain ⟨hw, hr, hs, hp⟩ := h.idle
  have hnone : ∀ id, id ∉ (start s).seen := fun _ => not_mem_nil
  constructor
  · exact h.mode
  · exact h.unready
  · exact fun _ => Iff.rfl
  · exact nodup_nil
  · rintro id (hid | hid | hid | hid)
    · exact absurd (hw ▸ hid) not_mem_nil
    · exact absurd (hr ▸ hid) not_mem_nil
    · exact absurd (hs ▸ hid) not_mem_nil
    · exact absurd (hp ▸ hid) not_mem_nil
  · exact fun id hid => absurd hid (hnone id)
  · intro r hmem
    rw [show (start s).sched = s from rfl, hr, hs] at hmem
    exact absurd hmem not_mem_nil
  · intro p
    rw [show (start s).sched = s from rfl, hw]
    exact nil_sublist _
  · exact fun x _ y hy => absurd hy not_mem_nil
  · exact fun x y _ _ i j hi => absurd (mem_seen.mpr ⟨i, hi⟩) (hnone x.id)

theorem not_sublist_swap {x y : Request} : ∀ {l : List Request}, l.Nodup → [x, y].Sublist l →
    ¬ [y, x].Sublist l := by
  intro l
  induction l with
  | nil => exact fun _ h => absurd (h.subset mem_cons_self) not_mem_nil
  | cons z l ih =>
    intro hn h h'
    obtain ⟨hz, hn⟩ := nodup_cons.mp hn
    rcases h with _ | ⟨_, h⟩ | ⟨_, h⟩ <;> rcases h' with _ | ⟨_, h'⟩ | ⟨_, h'⟩
    · exact ih hn h h'
    · exact hz (h.subset (mem_cons_of_mem _ mem_cons_self))
    · exact hz (h'.subset (mem_cons_of_mem _ mem_cons_self))
    · exact hz (h.subset mem_cons_self)

theorem Ordered.source (h : a.Ordered) {r : Request} (hr : r ∈ unseen a.seen a.sched.waiting) :
    r ∈ a.arrivals :=
  (h.order r.priority).subset (mem_inTurn.mpr ⟨hr, rfl⟩)

theorem Ordered.unseen_nodup (h : a.Ordered) : (ids (unseen a.seen a.sched.waiting)).Nodup := by
  refine List.Nodup.map_on (fun x hx y hy hid => ?_) (nodup_iff_count_le_one.mpr fun x => ?_)
  · exact inj_on_of_nodup_map h.nodup (h.source hx) (h.source hy) hid
  · have hcount : (unseen a.seen a.sched.waiting).count x
        = (inTurn a.seen x.priority a.sched.waiting).count x :=
      (count_filter (by simp)).symm
    rw [hcount]
    exact ((h.order x.priority).count_le x).trans
      (nodup_iff_count_le_one.mp (List.Nodup.of_map _ h.nodup) x)

theorem Ordered.enqueue (h : a.Ordered) {r : Request} (hfresh : r.id ∉ a.history.enqueued) :
    Ordered ⟨⟨a.sched.enqueue r, r.id :: a.history.enqueued⟩, a.arrivals ++ [r], a.outputs⟩ := by
  have hnew : r.id ∉ ids a.arrivals := fun hmem => hfresh ((h.arrived r.id).mpr hmem)
  have hunseen : r.id ∉ a.seen := fun hmem => hfresh (h.output r.id hmem)
  have hids : ids (a.arrivals ++ [r]) = ids a.arrivals ++ [r.id] := map_append
  have hnodup : (ids (a.arrivals ++ [r])).Nodup := by
    rw [hids]
    exact nodup_append'.mpr ⟨h.nodup, nodup_singleton _,
      disjoint_singleton.mpr hnew⟩
  -- a pair with a later element of another id was a pair before
  have hpair : ∀ {x y : Request}, [x, y].Sublist (a.arrivals ++ [r]) → y.id ≠ r.id →
      [x, y].Sublist a.arrivals := by
    intro x y hsub hne
    obtain ⟨l, l', heq, hl, hl'⟩ := sublist_append_iff.mp hsub
    rcases sublist_singleton.mp hl' with rfl | rfl
    · rw [append_nil] at heq
      rwa [heq]
    · have hlast : y = r := by
        have := congrArg List.getLast? heq
        rw [getLast?_concat] at this
        exact Option.some.inj this
      exact absurd (congrArg Request.id hlast) hne
  constructor
  · exact h.mode
  · exact h.unready
  · intro id
    rw [hids, mem_cons, mem_append, mem_singleton, h.arrived, or_comm]
  · exact hnodup
  · rintro id (hid | hid)
    · have hid : id ∈ ids (a.sched.waiting ++ [r]) := hid
      rw [ids, map_append, map_singleton, mem_append, mem_singleton] at hid
      exact hid.elim (fun hid => mem_cons_of_mem _ (h.tracked id (.inl hid)))
        fun hid => hid ▸ mem_cons_self
    · exact mem_cons_of_mem _ (h.tracked id (.inr hid))
  · exact fun id hid => mem_cons_of_mem _ (h.output id hid)
  · exact h.served
  · intro p
    show (inTurn a.seen p (a.sched.waiting ++ [r])).Sublist (a.arrivals ++ [r])
    rw [inTurn_append]
    exact (h.order p).append (filter_sublist.trans filter_sublist)
  · intro x hx y hy hseen hp hsub
    have hyr : y.id ≠ r.id := fun heq => hunseen (heq ▸ hseen)
    have hold := hpair hsub hyr
    have hx : x ∈ unseen a.seen (a.sched.waiting ++ [r]) := hx
    rw [unseen_append, mem_append] at hx
    rcases hx with hx | hx
    · exact h.behind x hx y (hold.subset (by simp)) hseen hp hold
    · obtain rfl := mem_singleton.mp (mem_unseen.mp hx).1
      exact hnew (mem_map_of_mem (hold.subset mem_cons_self))
  · intro x y hsub hp i j hi hj
    have hyr : y.id ≠ r.id := by
      intro heq
      exact hunseen (heq ▸ mem_seen.mpr ⟨j, hj⟩)
    exact h.first x y (hpair hsub hyr) hp i j hi hj

def afterPass (a : Turns) (tick : Tick) : Turns :=
  ⟨⟨(a.sched.schedule tick).1, a.history.enqueued⟩, a.arrivals,
    a.outputs ++ [(a.sched.schedule tick).2.prefillIds]⟩

theorem seen_afterPass (tick : Tick) :
    (a.afterPass tick).seen = a.seen ++ (a.sched.schedule tick).2.prefillIds := by
  rw [seen, afterPass, flatten_append, flatten_singleton, seen]

/-- The entries of `waiting` with no chunk yet, in a pass: those taken, the rest of the admitted
ones, and those behind, of which the first goes to the back. -/
structure Passes (a : Turns) (tick : Tick) (behind taken rest back : List Request) : Prop where
  front : ∀ p, inTurn a.seen p ((a.sched.beginPass tick).admitted ++ behind)
    = inTurn a.seen p a.sched.waiting
  left : behind = [] ∧ (a.sched.beginPass tick).sched.waiting = []
    ∨ ∃ d rest, behind = d :: rest ∧ (a.sched.beginPass tick).sched.waiting = rest ++ [d]
  takes : Takes (a.sched.beginPass tick).ctx (a.sched.beginPass tick).ctx.currentRunning 0
    (a.sched.beginPass tick).admitted a.seen (a.afterPass tick).seen
    (a.sched.beginPass tick).sched.waiting (a.afterPass tick).sched.waiting taken rest back

theorem Ordered.passes (h : a.Ordered) (tick : Tick) :
    ∃ behind taken rest back, a.Passes tick behind taken rest back := by
  have hswapped : ∀ r ∈ a.sched.swapped, r.id ∈ a.seen ∨ r.remaining = 0 :=
    fun r hr => h.served r (mem_append_right _ hr)
  obtain ⟨behind, hfront, hleft⟩ := beginPass_front h.mode hswapped tick
  have hnodup : (ids (unseen a.seen ((a.sched.beginPass tick).admitted
      ++ (a.sched.beginPass tick).sched.waiting))).Nodup := by
    have hnone : unseen a.seen (a.sched.returning tick) = [] := by
      refine eq_nil_iff_forall_not_mem.mpr fun r hr => ?_
      obtain ⟨hmem, hs, hrem⟩ := mem_unseen.mp hr
      exact (hswapped r (mem_returning.mp hmem).2.1).elim hs hrem
    have hperm := ((beginPass_returning tick a.sched).filter
      fun r => r.id ∉ a.seen ∧ r.remaining ≠ 0).map (·.id)
    refine hperm.nodup_iff.mpr ?_
    show (ids (unseen a.seen (a.sched.returning tick ++ a.sched.waiting))).Nodup
    rw [unseen_append, hnone, nil_append]
    exact h.unseen_nodup
  obtain ⟨taken, rest, back, ht⟩ := admitLoop_takes (a.sched.beginPass tick).ctx
    (beginPass_unready h.unready tick).1 a.seen (a.sched.beginPass tick).admitted
    ⟨(a.sched.beginPass tick).sched.waiting, (a.sched.beginPass tick).sched.running,
      (a.sched.beginPass tick).sched.admittedTotal, [], 0⟩ (by rwa [append_nil])
  simp only [append_nil, length_nil, Nat.add_zero] at ht
  refine ⟨behind, taken, rest, back, hfront, hleft, ?_⟩
  rw [seen_afterPass]
  exact ht

section Passes

variable {tick : Tick} {behind taken rest back : List Request} {x y : Request}

theorem Passes.line (hp : a.Passes tick behind taken rest back) (p : ℤ) :
    taken.filter (·.priority = p) ++ (rest.filter (·.priority = p) ++ inTurn a.seen p behind)
      = inTurn a.seen p a.sched.waiting := by
  have hadm : inTurn a.seen p (a.sched.beginPass tick).admitted
      = taken.filter (·.priority = p) ++ rest.filter (·.priority = p) := by
    rw [inTurn, hp.takes.split, filter_append]
  rw [← hp.front p, inTurn_append, hadm, append_assoc]

theorem Passes.mem_taken (hp : a.Passes tick behind taken rest back) (h : a.Ordered)
    (hy : y ∈ a.arrivals) (hid : y.id ∈ ids taken) :
    y ∈ taken ∧ y ∈ unseen a.seen a.sched.waiting := by
  obtain ⟨z, hz, hzy⟩ := mem_map.mp hid
  have hmem : z ∈ inTurn a.seen z.priority a.sched.waiting := by
    rw [← hp.line]
    exact mem_append_left _ (mem_filter.mpr ⟨hz, decide_eq_true rfl⟩)
  have hw := (mem_inTurn.mp hmem).1
  rw [← inj_on_of_nodup_map h.nodup (h.source hw) hy hzy]
  exact ⟨hz, hw⟩

theorem Passes.mem_after (hp : a.Passes tick behind taken rest back)
    (hx : x ∈ unseen (a.afterPass tick).seen (a.afterPass tick).sched.waiting) :
    x ∈ rest.filter (·.priority = x.priority) ++ inTurn a.seen x.priority behind := by
  rw [hp.takes.waiting, mem_append] at hx
  rw [mem_append]
  rcases hx with hx | hx
  · obtain ⟨hmem, hs, hrem⟩ := mem_unseen.mp hx
    refine .inr (mem_inTurn.mpr ⟨mem_unseen.mpr ⟨?_, hs, hrem⟩, rfl⟩)
    obtain ⟨rfl, hw⟩ | ⟨d, l, rfl, hw⟩ := hp.left
    · rwa [hw] at hmem
    · rw [hw] at hmem
      exact (perm_append_singleton d l).subset hmem
  · exact .inl (mem_filter.mpr ⟨hp.takes.back_subset hx, decide_eq_true rfl⟩)

theorem Passes.order (hp : a.Passes tick behind taken rest back)
    (hok : KeepsOrder a.seen a.sched tick) (p : ℤ) :
    (inTurn (a.afterPass tick).seen p (a.afterPass tick).sched.waiting).Sublist
      (inTurn a.seen p a.sched.waiting) := by
  rw [inTurn, hp.takes.waiting, filter_append, ← hp.line]
  by_cases hnil : inTurn a.seen p (a.sched.beginPass tick).sched.waiting = []
  · rw [← inTurn, hnil, nil_append]
    exact ((hp.takes.back_sublist hok p).trans (sublist_append_left _ _)).trans
      (sublist_append_right _ _)
  · have hback : back.filter (·.priority = p) = [] := by
      refine filter_eq_nil_iff.mpr fun x hx hxp => hnil ?_
      have hmem : x ∈ unseen a.seen (a.sched.beginPass tick).admitted := by
        rw [hp.takes.split]
        exact mem_append_right _ (hp.takes.back_subset hx)
      rw [← of_decide_eq_true hxp]
      exact hok.handedBack x hmem (hp.takes.turned x hx).1 (hp.takes.turned x hx).2
    rw [hback, append_nil]
    exact ((hok.left hp.left p).trans (sublist_append_right _ _)).trans
      (sublist_append_right _ _)

theorem Passes.not_before (hp : a.Passes tick behind taken rest back) (h : a.Ordered)
    (hx : x ∈ unseen (a.afterPass tick).seen (a.afterPass tick).sched.waiting)
    (hy : y ∈ a.arrivals) (hseen : y.id ∈ (a.afterPass tick).seen)
    (hpri : x.priority = y.priority) : ¬ [x, y].Sublist a.arrivals := by
  intro hsub
  have hmem := hp.mem_after hx
  by_cases hold : y.id ∈ a.seen
  · have hxw : x ∈ inTurn a.seen x.priority a.sched.waiting := by
      rw [← hp.line]
      exact mem_append_right _ hmem
    exact h.behind x (mem_inTurn.mp hxw).1 y hy hold hpri hsub
  · obtain ⟨hyt, -⟩ := hp.mem_taken h hy ((hp.takes.served y.id hseen).resolve_left hold)
    have hyp : y ∈ taken.filter (·.priority = x.priority) :=
      mem_filter.mpr ⟨hyt, decide_eq_true hpri.symm⟩
    have hpair : ([y] ++ [x]).Sublist (inTurn a.seen x.priority a.sched.waiting) := by
      rw [← hp.line]
      exact (singleton_sublist.mpr hyp).append (singleton_sublist.mpr hmem)
    exact not_sublist_swap (List.Nodup.of_map _ h.nodup) hsub
      (hpair.trans (h.order x.priority))

end Passes

theorem firstPass_afterPass (tick : Tick) (id : ℕ) : (a.afterPass tick).firstPass id
    = (a.firstPass id).or (if id ∈ (a.sched.schedule tick).2.prefillIds
        then some a.outputs.length else none) := by
  unfold firstPass afterPass
  rw [findIdx?_append]
  congr 1
  by_cases hid : id ∈ (a.sched.schedule tick).2.prefillIds <;> simp [hid, findIdx?_cons]

theorem firstPass_lt {id i : ℕ} (h : a.firstPass id = some i) : i < a.outputs.length :=
  (findIdx?_eq_some_iff_findIdx_eq.mp h).1

theorem Ordered.first_afterPass (h : a.Ordered) (tick : Tick) {x y : Request}
    (hsub : [x, y].Sublist a.arrivals) (hpri : x.priority = y.priority) {i j : ℕ}
    (hi : (a.afterPass tick).firstPass x.id = some i)
    (hj : (a.afterPass tick).firstPass y.id = some j) : i ≤ j := by
  obtain ⟨behind, taken, rest, back, hp⟩ := h.passes tick
  have hlast : i ≤ a.outputs.length := by
    have := firstPass_lt hi
    simp only [afterPass, length_append, length_singleton] at this
    omega
  rw [firstPass_afterPass] at hi hj
  cases hy : a.firstPass y.id with
  | none =>
    rw [hy, Option.none_or] at hj
    split_ifs at hj
    exact Option.some.inj hj ▸ hlast
  | some k =>
    rw [hy, Option.some_or] at hj
    obtain rfl := Option.some.inj hj
    cases hx : a.firstPass x.id with
    | some l =>
      rw [hx, Option.some_or] at hi
      obtain rfl := Option.some.inj hi
      exact h.first x y hsub hpri _ _ hx hy
    | none =>
      rw [hx, Option.none_or] at hi
      split_ifs at hi with hout
      have hunseen : x.id ∉ a.seen := by
        rw [mem_seen, hx]
        simp
      have hseen : x.id ∈ (a.afterPass tick).seen := by
        rw [seen_afterPass]
        exact mem_append_right _ hout
      obtain ⟨-, hxw⟩ := hp.mem_taken h (hsub.subset mem_cons_self)
        ((hp.takes.served x.id hseen).resolve_left hunseen)
      exact absurd hsub (h.behind x hxw y (hsub.subset (by simp)) (mem_seen.mpr ⟨k, hy⟩) hpri)

theorem Ordered.served_afterPass (h : a.Ordered) (tick : Tick) :
    ∀ r ∈ (a.afterPass tick).sched.running ++ (a.afterPass tick).sched.swapped,
      r.id ∈ (a.afterPass tick).seen ∨ r.remaining = 0 := by
  intro r hr
  rw [seen_afterPass]
  obtain ⟨-, hq⟩ := beginPass_cases tick a.sched
  have hold : ∀ e ∈ a.sched.running ++ a.sched.swapped,
      e.id ∈ a.seen ++ (a.sched.schedule tick).2.prefillIds ∨ e.remaining = 0 :=
    fun e he => (h.served e he).imp_left (mem_append_left _)
  rcases mem_append.mp hr with hr | hr
  · refine admitLoop_served (a.sched.beginPass tick).ctx a.seen _ _ (fun e he => ?_) r hr
    have he : e ∈ (a.sched.beginPass tick).sched.running := he
    rw [append_nil]
    refine h.served e (mem_append_left _ ?_)
    rcases hq with ⟨-, -, -, -, -, hp, -⟩ | ⟨-, hp, -⟩ | ⟨v, -, -, hp, -⟩
    · exact hp.subset he
    · exact hp.subset he
    · exact hp.subset (mem_cons_of_mem _ he)
  · have hr : r ∈ (a.sched.beginPass tick).sched.swapped := hr
    rcases hq with ⟨-, -, -, -, -, -, hsw⟩ | ⟨-, -, hsw⟩ | ⟨v, -, -, hp, hsw⟩ <;> rw [hsw] at hr
    · exact absurd hr not_mem_nil
    · exact hold r (mem_append_right _ hr)
    · rcases mem_append.mp hr with hr | hr
      · exact hold r (mem_append_right _ hr)
      · rw [mem_singleton.mp hr]
        exact hold v (mem_append_left _ (hp.subset mem_cons_self))

theorem Ordered.afterPass (h : a.Ordered) {tick : Tick} (hok : KeepsOrder a.seen a.sched tick) :
    (a.afterPass tick).Ordered := by
  obtain ⟨behind, taken, rest, back, hp⟩ := h.passes tick
  constructor
  · exact (beginPass_unready h.unready tick).2.2.trans h.mode
  · exact (beginPass_unready h.unready tick).2.1
  · exact h.arrived
  · exact h.nodup
  · exact fun id hid => h.tracked id (schedule_known tick hid)
  · intro id hid
    rw [seen_afterPass, mem_append] at hid
    exact hid.elim (h.output id) fun hid => h.tracked id (selected_known tick (.inl hid))
  · exact h.served_afterPass tick
  · exact fun p => (hp.order hok p).trans (h.order p)
  · exact fun x hx y hy hseen hpri => hp.not_before h hx hy hseen hpri
  · exact fun x y hsub hpri i j hi hj => h.first_afterPass tick hsub hpri hi hj

theorem Ordered.step (h : a.Ordered) (hok : a.FeedsInOrder call) (hs : a.step call = some a') :
    a'.Ordered := by
  obtain ⟨h', hh, rfl⟩ := Option.map_eq_some_iff.mp hs
  cases call with
  | enqueue r =>
    simp only [History.step] at hh
    split_ifs at hh with hfresh
    obtain rfl := Option.some.inj hh
    exact h.enqueue hfresh
  | schedule tick =>
    obtain rfl := Option.some.inj hh
    exact h.afterPass hok
  | pause id => exact hok.elim
  | resume id => exact hok.elim
  | finish id => exact hok.elim
  | retune => exact hok.elim

theorem Ordered.inOrder (h : a.Ordered) : a.InOrder where
  first := h.first
  waits := fun x y hsub hpri hseen hx =>
    h.behind x hx y (hsub.subset (by simp)) hseen hpri hsub

/-- In every run whose passes keep the order, of two requests of one priority the one that came
first has its first chunk no later. -/
theorem admitted_in_order {s : Scheduler} (hs : Relaxed s)
    (hr : Steps.Reach step FeedsInOrder (start s) a) : a.InOrder :=
  (hr.invariant (ordered_start hs) fun _ _ _ h hok hs => h.step hok hs).inOrder

theorem relaxed_new (maxBatchedTokens maxNumSeqs : ℕ) (admission : AdmissionController) :
    Relaxed (Scheduler.new maxBatchedTokens maxNumSeqs admission) :=
  ⟨⟨rfl, rfl, rfl, rfl⟩, rfl, rfl⟩

/-- Three prompts, of which the pressure of the backlog lets one in at a time. -/
def crowdedCalls (priority : ℤ) : List Call :=
  [.enqueue (freshRequest 1 60), .enqueue ⟨2, 60, priority, 0, []⟩, .enqueue (freshRequest 3 60),
    .schedule calmTick, .schedule calmTick, .schedule calmTick]

/-- Behind the first chunk stand two prompts of different priorities. -/
theorem admitted_in_order_crowded :
    ∃ a, Steps.exec step FeedsInOrder (start (Scheduler.new 100 8 ⟨0, 0⟩)) (crowdedCalls (-1))
      = some a ∧ a.InOrder := by
  obtain ⟨a, hrun⟩ : ∃ a, Steps.exec step FeedsInOrder (start (Scheduler.new 100 8 ⟨0, 0⟩))
      (crowdedCalls (-1)) = some a := ⟨_, rfl⟩
  exact ⟨a, hrun, admitted_in_order (relaxed_new 100 8 ⟨0, 0⟩) (Steps.reach_of_exec hrun)⟩

/-- Of one priority, the two change places, and the second has its chunk after the third. -/
theorem pressure_reverses_arrivals :
    ¬ ∀ s, Relaxed s → ∀ a, Steps.Reach step Feeds (start s) a →
      ∀ x y, [x, y].Sublist a.arrivals → x.priority = y.priority →
        ∀ i j, a.firstPass x.id = some i → a.firstPass y.id = some j → i ≤ j := by
  intro hall
  obtain ⟨a, hrun, harr, hx, hy⟩ : ∃ a, Steps.exec step Feeds
      (start (Scheduler.new 100 8 ⟨0, 0⟩)) (crowdedCalls 0) = some a
        ∧ a.arrivals = [freshRequest 1 60, freshRequest 2 60, freshRequest 3 60]
        ∧ a.firstPass 2 = some 2 ∧ a.firstPass 3 = some 1 := ⟨_, rfl, by decide⟩
  have hle := hall _ (relaxed_new 100 8 ⟨0, 0⟩) a (Steps.reach_of_exec hrun)
    (freshRequest 2 60) (freshRequest 3 60) (by rw [harr]; exact sublist_cons_self _ _) rfl
    2 1 hx hy
  omega

end Turns

end Grim.Scheduler
