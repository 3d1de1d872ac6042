import Grim.Memory.Evictions
import Grim.Memory.Leaks

/-!
# The idle nodes

The nodes without a reference or a pin, leaves or not, and what an eviction of a chain makes of
them.
-/

namespace Grim.Memory

open List

namespace RadixTree

variable {t t' : RadixTree} {now₀ : ℕ} {now : ℕ → ℕ}

instance (t : RadixTree) : DecidablePred t.Mapped := fun n =>
  inferInstanceAs (Decidable (t.blockToNode (t.nodes n).blockId = some n))

/-- The nodes that no sequence references and no pin holds at `now₀`. -/
def idle (t : RadixTree) (now₀ : ℕ) : Finset ℕ :=
  (Finset.range t.size).filter fun n => n ≠ t.root ∧ t.Mapped n ∧ t.Cold (fun _ => now₀) n

/-- The nodes above `n` and below the root, at most `fuel` of them. -/
def ancestorsFrom (t : RadixTree) : ℕ → ℕ → List ℕ
  | 0, _ => []
  | fuel + 1, n =>
    match (t.nodes n).parent with
    | some p => if p ≠ t.root then p :: ancestorsFrom t fuel p else []
    | none => []

def ancestors (t : RadixTree) (n : ℕ) : List ℕ := t.ancestorsFrom n n

/-- No pin that lasts at `now₀` is over when `now` is read. -/
def PinsLast (t : RadixTree) (now₀ : ℕ) (now : ℕ → ℕ) : Prop :=
  ∀ n k, (t.nodes n).isPinned now₀ → (t.nodes n).isPinned (now k)

/-- A pin lasts whenever `now` is read if and only if it lasts at `now₀`. -/
def Steady (t : RadixTree) (now₀ : ℕ) (now : ℕ → ℕ) : Prop :=
  ∀ n k, (t.nodes n).isPinned (now k) = (t.nodes n).isPinned now₀

theorem sweepExpiredPins_isPinned (n : ℕ) :
    ((t.sweepExpiredPins now₀).nodes n).isPinned now₀ = (t.nodes n).isPinned now₀ := by
  simp only [sweepExpiredPins, RadixNode.isPinned]
  split_ifs with h
  · rcases hp : (t.nodes n).pinnedUntil with - | u <;> simp_all
  · rfl

theorem PinsLast.steady (h : t.PinsLast now₀ now) : (t.sweepExpiredPins now₀).Steady now₀ now := by
  intro n k
  have hk := h n k
  rw [sweepExpiredPins_isPinned]
  simp only [sweepExpiredPins, RadixNode.isPinned] at hk ⊢
  split_ifs with hover
  · rcases hp : (t.nodes n).pinnedUntil with - | u <;> simp_all
  · rcases hp : (t.nodes n).pinnedUntil with - | u <;> simp_all

theorem mem_idle {n : ℕ} : n ∈ t.idle now₀ ↔
    n < t.size ∧ n ≠ t.root ∧ t.Mapped n ∧ t.Cold (fun _ => now₀) n := by
  rw [idle, Finset.mem_filter, Finset.mem_range]

theorem soleAncestorsFrom_subset : ∀ {fuel n : ℕ},
    t.soleAncestorsFrom fuel n ⊆ t.ancestorsFrom fuel n
  | 0, _ => nil_subset _
  | fuel + 1, n => by
    rcases hp : (t.nodes n).parent with - | p
    · simp only [soleAncestorsFrom, hp]
      exact nil_subset _
    · simp only [soleAncestorsFrom, ancestorsFrom, hp]
      split_ifs with hsole hroot
      · exact cons_subset_cons _ soleAncestorsFrom_subset
      · exact absurd hsole.1 hroot
      · exact nil_subset _
      · exact nil_subset _

theorem Pruned.ancestorsFrom (h : Pruned t t') : ∀ {fuel n : ℕ},
    t'.ancestorsFrom fuel n = t.ancestorsFrom fuel n
  | 0, _ => rfl
  | fuel + 1, n => by
    obtain ⟨children, -, heq⟩ := h.nodes n
    simp only [RadixTree.ancestorsFrom, heq, h.root, Pruned.ancestorsFrom h]

theorem SameShape.ancestors (h : SameShape t t') (n : ℕ) : t'.ancestors n = t.ancestors n := by
  have hfrom : ∀ fuel n, t'.ancestorsFrom fuel n = t.ancestorsFrom fuel n := by
    intro fuel
    induction fuel with
    | zero => exact fun _ => rfl
    | succ fuel ih =>
      intro n
      simp only [RadixTree.ancestorsFrom, h.parent, h.root, ih]
  exact hfrom n n

theorem Pruned.steady (h : Pruned t t') (hs : t.Steady now₀ now) : t'.Steady now₀ now := by
  intro n k
  obtain ⟨children, -, heq⟩ := h.nodes n
  rw [heq]
  exact hs n k

theorem Steady.cold_iff (h : t.Steady now₀ now) {n : ℕ} :
    t.Cold now n ↔ t.Cold (fun _ => now₀) n := by
  unfold Cold
  rw [h n n]

theorem Steady.evictableLeaves (h : t.Steady now₀ now) :
    t.evictableLeaves now = (t.idle now₀).card := by
  unfold RadixTree.evictableLeaves idle
  congr 1
  refine Finset.filter_congr fun n _ => ?_
  rw [← h.cold_iff, Cold, Mapped]
  tauto

theorem Steady.coldest_idle (h : t.Steady now₀ now) {leaf : ℕ}
    (hleaf : t.coldest now = some leaf) :
    leaf ∈ t.idle now₀ ∧ (t.nodes leaf).children = [] := by
  obtain ⟨hroot, hm, hnil, hcold⟩ := evictable_iff.mp (coldest_evictable hleaf).1
  exact ⟨mem_idle.mpr ⟨(coldest_evictable hleaf).2, hroot, hm, h.cold_iff.mp hcold⟩, hnil⟩

theorem Parented.coldest_isSome (hp : t.Parented) (h : t.Steady now₀ now) {nodes : Finset ℕ}
    (hidle : nodes ⊆ t.idle now₀)
    (hbelow : ∀ n ∈ nodes, ∀ kc ∈ (t.nodes n).children, kc.2 ∈ nodes)
    (hne : nodes.Nonempty) : (t.coldest now).isSome := by
  -- the node with the highest number has no child
  have hmax := Finset.max'_mem _ hne
  obtain ⟨hlt, hroot, hm, hcold⟩ := mem_idle.mp (hidle hmax)
  refine RadixTree.coldest_isSome (n := nodes.max' hne) ?_ hlt
  refine evictable_iff.mpr ⟨hroot, hm, ?_, h.cold_iff.mpr hcold⟩
  refine eq_nil_iff_forall_not_mem.mpr fun ⟨k, c⟩ hc => ?_
  have hle := Finset.le_max' _ _ (hbelow _ hmax _ hc)
  have hlt := (hp.link _ k c hc).2.1
  omega

theorem Parented.below_ancestor (hp : t.Parented) {nodes : Finset ℕ}
    (hbelow : ∀ n ∈ nodes, ∀ kc ∈ (t.nodes n).children, kc.2 ∈ nodes) {a : ℕ} (ha : a ∈ nodes) :
    ∀ {fuel n : ℕ}, t.Attached n → a ∈ t.ancestorsFrom fuel n → n ∈ nodes
  | 0, _, _, hin => by simp [ancestorsFrom] at hin
  | fuel + 1, n, hn, hin => by
    obtain ⟨p, hparent, -, hchild, hatt⟩ := hp.parent hn
    simp only [ancestorsFrom, hparent] at hin
    split_ifs at hin with hroot
    · have hpn : p ∈ nodes := by
        rcases mem_cons.mp hin with rfl | hin
        · exact ha
        · exact hp.below_ancestor hbelow ha (hatt.resolve_left hroot) hin
      obtain ⟨kc, hkc, rfl⟩ := mem_map.mp hchild
      exact hbelow p hpn kc hkc
    · simp at hin

theorem remove_isPinned {bid : ℕ} (n now : ℕ) :
    ((t.remove [bid]).nodes n).isPinned now = (t.nodes n).isPinned now := by
  unfold remove
  split
  · rename_i idx _
    by_cases hn : n = idx <;> simp [remove, modify, RadixNode.isPinned, hn]
  · rfl

theorem remove_idle {bid n : ℕ} (hn : t.blockToNode bid ≠ some n) :
    n ∈ (t.remove [bid]).idle now₀ ↔ n ∈ t.idle now₀ := by
  have hshape : t.SameShape (t.remove [bid]) := remove_shape
  have href : ((t.remove [bid]).nodes n).refCount = (t.nodes n).refCount := by
    unfold remove
    split
    · rename_i idx hidx
      have hne : n ≠ idx := fun h => hn (h ▸ hidx)
      simp [remove, modify, hne]
    · rfl
  rw [mem_idle, mem_idle, hshape.size, hshape.root, hshape.mapped, Cold, Cold, href,
    remove_isPinned]

theorem Parented.ancestors_attached (h : t.Parented) : ∀ {fuel n : ℕ}, t.Attached n →
    ∀ a ∈ t.ancestorsFrom fuel n, t.Attached a
  | 0, _, _, a, ha => by simp [ancestorsFrom] at ha
  | fuel + 1, n, hn, a, ha => by
    obtain ⟨p, hp, -, -, hatt⟩ := h.parent hn
    simp only [ancestorsFrom, hp] at ha
    split_ifs at ha with hroot
    · have hpa := hatt.resolve_left hroot
      rcases mem_cons.mp ha with rfl | ha
      · exact hpa
      · exact h.ancestors_attached hpa a ha
    · simp at ha

theorem Parented.soleAncestors_lt (h : t.Parented) : ∀ {fuel n : ℕ}, t.Attached n →
    ∀ a ∈ t.soleAncestorsFrom fuel n, a < n
  | 0, _, _, a, ha => by simp [soleAncestorsFrom] at ha
  | fuel + 1, n, hn, a, ha => by
    obtain ⟨p, hp, hlt, -, hatt⟩ := h.parent hn
    simp only [soleAncestorsFrom, hp] at ha
    split_ifs at ha with hsole
    · rcases mem_cons.mp ha with rfl | ha
      · exact hlt
      · exact (h.soleAncestors_lt (hatt.resolve_left hsole.1) a ha).trans hlt
    · simp at ha

theorem Pruned.blockId (h : Pruned t t') (n : ℕ) : (t'.nodes n).blockId = (t.nodes n).blockId := by
  obtain ⟨children, -, heq⟩ := h.nodes n
  rw [heq]

theorem Pruned.mapped (h : Pruned t t') {n : ℕ} (hn : t'.Mapped n) : t.Mapped n := by
  unfold Mapped at hn ⊢
  rw [h.blockId] at hn
  exact h.map _ _ hn

section Chain

variable {leaf : ℕ} (h : t.Parented) (hleaf : t.coldest now = some leaf)
  (hmap : ∀ n ∈ leaf :: t.soleAncestors leaf, t.Mapped n)

include h hleaf hmap

theorem evict_mapped (n : ℕ) : (t.evictColdestChain now).1.Mapped n ↔
    t.Mapped n ∧ n ∉ leaf :: t.soleAncestors leaf := by
  obtain ⟨hpar, hatt, hchain⟩ := h.evict hleaf
  have hpr := evictColdestChain_pruned t now
  constructor
  · intro hn
    exact ⟨hpr.mapped hn, ((hatt n).mp (hpar.mapped _ _ hn).2).2⟩
  · rintro ⟨hn, hout⟩
    have hb : t.containsBlock (t.nodes n).blockId := Option.isSome_of_eq_some hn
    rcases @evictColdestChain_containsBlock _ now _ hb with hb | hb
    · obtain ⟨m, hm⟩ := Option.isSome_iff_exists.mp hb
      have hmn := (hpr.map _ _ hm).symm.trans hn
      unfold Mapped
      rw [hpr.blockId, hm, hmn]
    · rw [hchain] at hb
      obtain ⟨m, hm, heq⟩ := mem_map.mp hb
      exact absurd ((hmap m hm).inj hn heq ▸ hm) hout

theorem evict_idle (n : ℕ) : n ∈ (t.evictColdestChain now).1.idle now₀ ↔
    n ∈ t.idle now₀ ∧ n ∉ leaf :: t.soleAncestors leaf := by
  have hpr := evictColdestChain_pruned t now
  obtain ⟨children, -, heq⟩ := hpr.nodes n
  rw [mem_idle, mem_idle, evict_mapped h hleaf hmap, Cold, Cold, heq, hpr.size, hpr.root]
  tauto

theorem evict_contains (now₀ : ℕ) {b : ℕ} (hb : (t.evictColdestChain now).1.containsBlock b) :
    b ∉ (t.evictColdestChain now).2 ∧ t.containsBlock b
      ∧ (t.evictColdestChain now).1.isPinned b now₀ = t.isPinned b now₀ := by
  obtain ⟨hpar, -, hchain⟩ := h.evict hleaf
  have hpr := evictColdestChain_pruned t now
  obtain ⟨n, hn⟩ := Option.isSome_iff_exists.mp hb
  have hbn := hpr.map _ _ hn
  have hid := (h.mapped b n hbn).1
  have hm : (t.evictColdestChain now).1.Mapped n := by
    unfold Mapped
    rw [hpr.blockId, hid, hn]
  obtain ⟨children, -, heq⟩ := hpr.nodes n
  refine ⟨fun hin => ?_, Option.isSome_of_eq_some hbn, ?_⟩
  · rw [hchain] at hin
    obtain ⟨m, hin, hmb⟩ := mem_map.mp hin
    obtain ⟨hmn, hout⟩ := (evict_mapped h hleaf hmap n).mp hm
    exact hout ((hmap m hin).inj hmn (hmb.trans hid.symm) ▸ hin)
  · unfold isPinned
    rw [hn, hbn, Option.any_some, Option.any_some, heq]
    rfl

end Chain

end RadixTree

end Grim.Memory
