import Mathlib.Data.Finset.Card
import DemoCode.ZooKeeper.ZkWrapper

/-! The election among the clients of one directory: each of them takes its mode from the listing
that it got.  Which of them are masters depends on what the listings have in front. -/

namespace DemoCode.ZooKeeper

/-- The clients of one directory, one for each registered name, after any events. -/
structure Ensemble where
  dir : Str
  names : Finset Str
  client : Str → CZkWrapper
  start : Str → CZkWrapper
  noSlash : ∀ c ∈ names, '/' ∉ c
  started : ∀ c ∈ names, ∃ cb, startWatch cb (dir ++ '/' :: c) = some (start c)
  ran : ∀ c ∈ names, ∃ evs acts, Machine.run CZkWrapper.step (start c) evs = some (client c, acts)

/-- The listings of a set of names: each of its orders. -/
def IsListing (names : Finset Str) (childs : List Str) : Prop :=
  childs.Nodup ∧ childs.toFinset = names

instance (names : Finset Str) (childs : List Str) : Decidable (IsListing names childs) :=
  inferInstanceAs (Decidable (_ ∧ _))

/-- `ElectMaster` of the client selects the mode. -/
def CZkWrapper.Selects (w : CZkWrapper) (childs : List Str) (mode : ZkMode) : Prop :=
  ∃ told, Action.electCb mode told ∈ (w.electMaster .zok childs).2

namespace CZkWrapper

/-- A client is the master exactly when the listing starts with its name. -/
theorem selects_master_iff (w : CZkWrapper) (childs : List Str) :
    w.Selects childs .master ↔ childs.head? = some w.nodeName := by
  cases childs with
  | nil =>
    simp only [Selects, electMaster, createZNode, List.idxOf?_nil, if_true]
    constructor
    · rintro ⟨told, hIn⟩
      split at hIn <;> simp at hIn
    · simp
  | cons c rest =>
    by_cases hc : c = w.nodeName
    · subst hc
      simp [Selects, electMaster, List.idxOf?_cons]
    · have hNot : ¬ w.Selects (c :: rest) .master := by
        rintro ⟨told, hIn⟩
        simp only [electMaster, List.idxOf?_cons, beq_iff_eq, hc, if_false, if_true] at hIn
        cases hRest : rest.idxOf? w.nodeName with
        | none =>
          simp only [hRest, createZNode, Option.map_none] at hIn
          split at hIn <;> simp at hIn
        | some i => simp [hRest] at hIn
      simp [hNot, hc]

end CZkWrapper

namespace Ensemble

theorem client_nodeName (e : Ensemble) {c : Str} (hc : c ∈ e.names) :
    (e.client c).nodeName = c := by
  obtain ⟨cb, hStart⟩ := e.started c hc
  obtain ⟨evs, acts, hRun⟩ := e.ran c hc
  rw [(CZkWrapper.run_same hRun).nodeName]
  exact (startWatch_path (e.noSlash c hc) hStart).2.2

/-- The clients that have run elect as they should: no two masters, and one when no client is
missing. -/
def OneMaster (e : Ensemble) (listing : Str → List Str) (done : Finset Str) : Prop :=
  (∀ c ∈ done, ∀ d ∈ done, (e.client c).Selects (listing c) .master →
    (e.client d).Selects (listing d) .master → c = d) ∧
  (done = e.names → e.names.Nonempty → ∃ c ∈ done, (e.client c).Selects (listing c) .master)

/-- The names that stand in front of the listing their own client got. -/
def ownFirst (e : Ensemble) (listing : Str → List Str) : Finset Str :=
  e.names.filter fun c => (listing c).head? = some c

theorem mem_ownFirst (e : Ensemble) {listing : Str → List Str} {c : Str} (hc : c ∈ e.names) :
    (e.client c).Selects (listing c) .master ↔ c ∈ e.ownFirst listing := by
  rw [CZkWrapper.selects_master_iff, e.client_nodeName hc]
  simp [ownFirst, hc]

/-- For one assignment of listings: whoever has run, the election is right exactly when a single
name stands in front of its own client's listing. -/
theorem oneMaster_iff_card (e : Ensemble) (listing : Str → List Str) :
    (∀ done ⊆ e.names, e.OneMaster listing done) ↔
      (e.names.Nonempty → (e.ownFirst listing).card = 1) := by
  constructor
  · intro h hSome
    obtain ⟨hMost, hLeast⟩ := h e.names Finset.Subset.rfl
    obtain ⟨m, hm, hMaster⟩ := hLeast rfl hSome
    rw [Finset.card_eq_one]
    refine ⟨m, Finset.eq_singleton_iff_unique_mem.mpr ⟨(e.mem_ownFirst hm).mp hMaster, ?_⟩⟩
    intro c hc
    have hcn : c ∈ e.names := Finset.mem_of_mem_filter c hc
    exact hMost c hcn m hm ((e.mem_ownFirst hcn).mpr hc) hMaster
  · intro h done hDone
    refine ⟨fun c hc d hd hcM hdM => ?_, fun hAll hSome => ?_⟩
    · have hOne := (h ⟨c, hDone hc⟩).le
      exact Finset.card_le_one.mp hOne c ((e.mem_ownFirst (hDone hc)).mp hcM) d
        ((e.mem_ownFirst (hDone hd)).mp hdM)
    · obtain ⟨m, hOnly⟩ := Finset.card_eq_one.mp (h hSome)
      have hmIn : m ∈ e.ownFirst listing := hOnly ▸ Finset.mem_singleton_self m
      have hm : m ∈ e.names := Finset.mem_of_mem_filter m hmIn
      exact ⟨m, hAll ▸ hm, (e.mem_ownFirst hm).mpr hmIn⟩

end Ensemble

theorem IsListing.mem_of_head {names : Finset Str} {childs : List Str} {m : Str}
    (h : IsListing names childs) (hHead : childs.head? = some m) : m ∈ names := by
  rw [← h.2, List.mem_toFinset]
  exact List.mem_of_mem_head? hHead

theorem IsListing.exists_head {names : Finset Str} {childs : List Str} (h : IsListing names childs)
    (hSome : names.Nonempty) : ∃ m, childs.head? = some m := by
  cases childs with
  | nil => simp [← h.2] at hSome
  | cons m rest => exact ⟨m, rfl⟩

/-- What the service may answer for a directory: some of the listings of its names. -/
structure Service (names : Finset Str) where
  given : Set (List Str)
  some : given.Nonempty
  isListing : ∀ childs ∈ given, IsListing names childs

/-- When all listings have one name in front, its client is the only one that finds itself there. -/
theorem Ensemble.ownFirst_of_head (e : Ensemble) (service : Service e.names) {m : Str}
    (hm : ∀ childs ∈ service.given, childs.head? = Option.some m) {listing : Str → List Str}
    (hList : ∀ c ∈ e.names, listing c ∈ service.given) : e.ownFirst listing = {m} := by
  obtain ⟨childs, hChilds⟩ := service.some
  have hmIn : m ∈ e.names := (service.isListing childs hChilds).mem_of_head (hm childs hChilds)
  refine Finset.eq_singleton_iff_unique_mem.mpr ⟨?_, fun c hc => ?_⟩
  · simp [ownFirst, hmIn, hm _ (hList m hmIn)]
  · simp only [ownFirst, Finset.mem_filter] at hc
    exact Option.some.inj (hc.2.symm.trans (hm _ (hList c hc.1)))

/-- The clients that have run elect as they should, for every listing that each of them may get and
whoever has run, exactly when all listings of the service have the same name in front; and for one
assignment of listings, exactly when a single client finds its own name in front. -/
theorem one_master_iff (e : Ensemble) (service : Service e.names) :
    ((∀ listing, (∀ c ∈ e.names, listing c ∈ service.given) →
        ∀ done ⊆ e.names, e.OneMaster listing done) ↔
      (e.names.Nonempty → ∃ m, ∀ childs ∈ service.given, childs.head? = some m)) ∧
    ∀ listing, (∀ done ⊆ e.names, e.OneMaster listing done) ↔
      (e.names.Nonempty → (e.ownFirst listing).card = 1) := by
  refine ⟨⟨fun h hSome => ?_, fun h listing hList => ?_⟩, e.oneMaster_iff_card⟩
  · obtain ⟨first, hFirst⟩ := service.some
    obtain ⟨m, hm⟩ := (service.isListing first hFirst).exists_head hSome
    refine ⟨m, fun childs hChilds => ?_⟩
    obtain ⟨c, hc⟩ := (service.isListing childs hChilds).exists_head hSome
    -- `m` gets a listing that it is in front of, and all others get `childs`
    let listing : Str → List Str := fun d => if d = m then first else childs
    have hList : ∀ d ∈ e.names, listing d ∈ service.given := by
      intro d _
      by_cases hd : d = m <;> simp [listing, hd, hFirst, hChilds]
    have hOne := (e.oneMaster_iff_card listing).mp (h listing hList) hSome
    have hmIn : m ∈ e.ownFirst listing := by
      simp [Ensemble.ownFirst, listing, (service.isListing first hFirst).mem_of_head hm, hm]
    have hcIn : c ∈ e.ownFirst listing := by
      by_cases hcm : c = m
      · rwa [hcm]
      · simp [Ensemble.ownFirst, listing, (service.isListing childs hChilds).mem_of_head hc, hc,
          hcm]
    rw [hc, Finset.card_le_one.mp hOne.le c hcIn m hmIn]
  · rw [e.oneMaster_iff_card]
    intro hSome
    obtain ⟨m, hm⟩ := h hSome
    rw [e.ownFirst_of_head service hm hList, Finset.card_singleton]

/-- Two clients of `/eddid_feed`, as `StartWatch` leaves them. -/
def twoClients : Ensemble :=
  let wrapper : Str → CZkWrapper := fun c =>
    { zkElectCb := true
      dirPath := "/eddid_feed".toList
      nodeName := c
      nodeNameVec := ["eddid_feed".toList, c] }
  { dir := "/eddid_feed".toList
    names := {"node001".toList, "node002".toList}
    client := wrapper
    start := wrapper
    noSlash := by decide
    started := by
      intro c hc
      rw [Finset.mem_insert, Finset.mem_singleton] at hc
      rcases hc with rfl | rfl <;> exact ⟨true, by decide⟩
    ran := fun c _ => ⟨[], [], rfl⟩ }

/-- The names come in one order only. -/
def inOrder : Service twoClients.names where
  given := {["node001".toList, "node002".toList]}
  some := Set.singleton_nonempty _
  isListing := by
    rintro _ rfl
    decide

/-- The names come in either order. -/
def inAnyOrder : Service twoClients.names where
  given := {["node001".toList, "node002".toList], ["node002".toList, "node001".toList]}
  some := Set.insert_nonempty _ _
  isListing := by
    rintro _ (rfl | rfl) <;> decide

theorem one_master_iff_twoClients :
    (∀ listing, (∀ c ∈ twoClients.names, listing c ∈ inOrder.given) →
      ∀ done ⊆ twoClients.names, twoClients.OneMaster listing done) ∧
    ¬∀ listing, (∀ c ∈ twoClients.names, listing c ∈ inAnyOrder.given) →
      ∀ done ⊆ twoClients.names, twoClients.OneMaster listing done := by
  constructor
  · apply (one_master_iff twoClients inOrder).1.mpr
    intro _
    refine ⟨"node001".toList, ?_⟩
    rintro _ rfl
    rfl
  · intro hAll
    have hSome : twoClients.names.Nonempty := Finset.insert_nonempty _ _
    obtain ⟨m, hm⟩ := (one_master_iff twoClients inAnyOrder).1.mp hAll hSome
    have hFirst : some "node001".toList = some m := hm _ (Or.inl rfl)
    have hSecond : some "node002".toList = some m := hm _ (Or.inr rfl)
    exact absurd (hFirst.trans hSecond.symm) (by decide)

/-- Each of the two clients gets a listing of both names with its own in front, and both are
masters. -/
theorem two_masters :
    ∃ listing, (∀ c ∈ twoClients.names, IsListing twoClients.names (listing c)) ∧
      ¬ twoClients.OneMaster listing twoClients.names := by
  let a := "node001".toList
  let b := "node002".toList
  refine ⟨fun c => if c = a then [a, b] else [b, a], by decide, fun hOne => ?_⟩
  have hAgree := hOne.1 a (by decide) b (by decide) ⟨true, by decide⟩ ⟨true, by decide⟩
  exact absurd hAgree (by decide)

end DemoCode.ZooKeeper
