import FtsUring.Storage.ArraySteps
import FtsUring.Storage.PoolFrames
import FtsUring.Storage.PoolLifecycle

/-!
# A pool without a free frame

The plain array leaves open what happens when more pages are pinned than there is room for. `boundedHandler`
says it: the page is refused and nothing changes. A pool that has exactly as many frames as the array has room
behaves so, since a fetch returns NULL when each frame holds a pinned page.
-/

namespace FtsUring

open Foundation

/-- The page can be pinned: it is pinned already, or not all frames are taken. -/
def PageArray.Available (s : PageArray) (pageId : ℕ) : Prop :=
  pageId ∈ s.pins ∨ s.pins.dedup.length < s.room

open Classical in
/-- The calls over the plain array with a fetch that fails when there is no room. -/
noncomputable def boundedHandler : Handler pageLanguage PageArray where
  run
    | .fetchPage pageId, s =>
      if pageId < invalidPageId ∧ s.pins.length + 1 < 2 ^ 32 then
        if s.Available pageId then some (true, s.pin pageId) else some (false, s)
      else none
    | command, s => arrayHandler.run command s

namespace PageArray

variable {s : PageArray} {pageId : ℕ}

/-- Fetching a page that can be pinned. -/
theorem exec_fetchPage_available (hvalid : pageId < invalidPageId) (hlimit : s.pins.length + 1 < 2 ^ 32)
    (h : s.Available pageId) : boundedHandler.exec (fetchPage pageId) s = some (true, s.pin pageId) := by
  rw [fetchPage, Handler.exec_perform]
  exact (if_pos ⟨hvalid, hlimit⟩).trans (if_pos h)

/-- Fetching a page that cannot be pinned. -/
theorem exec_fetchPage_refused (hvalid : pageId < invalidPageId) (hlimit : s.pins.length + 1 < 2 ^ 32)
    (h : ¬s.Available pageId) : boundedHandler.exec (fetchPage pageId) s = some (false, s) := by
  rw [fetchPage, Handler.exec_perform]
  exact (if_pos ⟨hvalid, hlimit⟩).trans (if_neg h)

/-- Pages that can be pinned. -/
theorem Available.fetchable (h : s.Available pageId) (hvalid : pageId < invalidPageId)
    (hlimit : s.pins.length + 1 < 2 ^ 32) : s.Fetchable pageId :=
  ⟨hvalid, h, hlimit⟩

end PageArray

/-- The bounded array does what the plain one does. -/
theorem boundedHandler_simulates : boundedHandler.Simulates arrayHandler Eq := by
  rintro command s _ rfl answer s' hrun
  refine ⟨s', ?_, rfl⟩
  cases command with
  | fetchPage pageId =>
    simp only [arrayHandler, Option.ite_none_right_eq_some, Option.some.injEq] at hrun
    obtain ⟨⟨hvalid, hroom, hlimit⟩, hanswer⟩ := hrun
    exact ((if_pos ⟨hvalid, hlimit⟩).trans (if_pos hroom)).trans (congrArg some hanswer)
  | pageData pageId => exact hrun
  | modifyPage pageId change => exact hrun
  | unpinPage pageId isDirty hint => exact hrun
  | writeZeroPage pageId => exact hrun
  | walAttached => exact hrun
  | walAppend txnId recType pageId slotId payload => exact hrun
  | takePageId => exact hrun
  | nextPageId => exact hrun
  | setNextPageId value => exact hrun

/-- Runs of the plain array are runs of the bounded one. -/
theorem exec_bounded {α : Type} {p : PageProgram α} {s t : PageArray} {value : α}
    (h : arrayHandler.exec p s = some (value, t)) : boundedHandler.exec p s = some (value, t) := by
  obtain ⟨t', hexec, rfl⟩ := boundedHandler_simulates.exec rfl h
  exact hexec

/-- So total correctness carries over. -/
theorem Ensures.bounded {α : Type} {p : PageProgram α} {s : PageArray} {post : α → PageArray → Prop}
    (h : arrayHandler.Ensures p s post) : boundedHandler.Ensures p s post := by
  obtain ⟨value, t, hexec, hpost⟩ := h
  exact .of_exec (exec_bounded hexec) hpost

/-! ## The pool -/

/-- The machine is in a state that the array describes, and it has exactly the frames of the array. -/
structure ExactlyRepresents (m : Machine) (s : PageArray) : Prop extends Represents m s where
  frames : m.storage.bpm.poolSize = s.room
  positive : 0 < s.room

/-- If as many pages are pinned as there are frames, then every frame holds a pinned page. -/
theorem ExactlyRepresents.frame_mem_pins {m : Machine} {s : PageArray} (h : ExactlyRepresents m s)
    (hfull : s.room ≤ s.pins.dedup.length) {i : ℕ} (hi : i < m.storage.bpm.poolSize) :
    (m.storage.bpm.frame i).pageId ∈ s.pins := by
  have hsubset : s.pins.dedup ⊆ m.storage.bpm.frames.map Frame.pageId := by
    intro pageId hmem
    obtain ⟨hvalid, j, hj⟩ := h.pinned pageId (List.mem_dedup.mp hmem)
    have hlt := m.storage.bpm.lt_poolSize_of_frame (hj.trans_ne hvalid.ne)
    refine List.mem_map.mpr ⟨m.storage.bpm.frame j, ?_, hj⟩
    rw [BufferPoolManager.frame, List.getD_eq_getElem _ _ hlt]
    exact List.getElem_mem hlt
  have hlength : (m.storage.bpm.frames.map Frame.pageId).length ≤ s.pins.dedup.length := by
    rw [List.length_map]
    exact h.frames.trans_le hfull
  have hperm := ((List.nodup_dedup s.pins).subperm hsubset).perm_of_length_le hlength
  rw [← List.mem_dedup, hperm.mem_iff]
  refine List.mem_map.mpr ⟨m.storage.bpm.frame i, ?_, rfl⟩
  rw [BufferPoolManager.frame, List.getD_eq_getElem _ _ hi]
  exact List.getElem_mem hi

/-- Then a page that is not pinned cannot be fetched. -/
theorem ExactlyRepresents.fetchPage_refused {m : Machine} {s : PageArray} (h : ExactlyRepresents m s)
    {pageId : ℕ} (hrefused : ¬s.Available pageId) :
    (bufferPoolFetchPage m.storage pageId).1 = none ∧
      ExactlyRepresents { m with storage := (bufferPoolFetchPage m.storage pageId).2 } s := by
  rw [PageArray.Available, not_or, not_lt] at hrefused
  have hhand : m.storage.bpm.clockHand < m.storage.bpm.poolSize :=
    h.wellFormed.hand.resolve_right (h.frames.trans_ne h.positive.ne')
  have htaken : ∀ i < m.storage.bpm.poolSize, ¬(m.storage.bpm.frame i).Free := by
    intro i hi hfree
    have hmem := h.frame_mem_pins hrefused.2 hi
    have hvalid := (h.pinned _ hmem).1
    have hcount := h.pinCount i hvalid.ne
    have hpos := List.count_pos_iff.mpr hmem
    rw [Frame.Free] at hfree
    omega
  have hfetches := fetches_bufferPoolFetchPage hhand h.small pageId
  generalize bufferPoolFetchPage m.storage pageId = result at hfetches
  obtain ⟨answer, after⟩ := result
  cases hfetches with
  | @hit i hfound =>
    obtain ⟨hi, hpage⟩ := BufferPoolManager.frameIndex_some hfound
    exact absurd (hpage ▸ h.frame_mem_pins hrefused.2 hi) hrefused.1
  | pinned habsent hall hhand' =>
    exact ⟨rfl, ⟨h.toRepresents.moveHand (.inl hhand'), h.frames, h.positive⟩⟩
  | load habsent hi hfree hfirst hhand' hread => exact absurd hfree (htaken _ hi)

/-- Every call keeps the room of the array. -/
theorem PageArray.room_run {s s' : PageArray} {command : PageCommand} {answer : command.Answer}
    (h : arrayHandler.run command s = some (answer, s')) : s'.room = s.room := by
  cases command with
  | fetchPage pageId =>
    simp only [arrayHandler, Option.ite_none_right_eq_some, Option.some.injEq] at h
    rw [← (Prod.mk.inj h.2).2]
    rfl
  | pageData pageId =>
    simp only [arrayHandler, Option.dite_none_right_eq_some, Option.some.injEq] at h
    obtain ⟨_, hresult⟩ := h
    rw [← (Prod.mk.inj hresult).2]
  | modifyPage pageId change =>
    simp only [arrayHandler, Option.dite_none_right_eq_some, Option.some.injEq] at h
    obtain ⟨_, hresult⟩ := h
    rw [← (Prod.mk.inj hresult).2]
    rfl
  | unpinPage pageId isDirty hint =>
    simp only [arrayHandler, Option.ite_none_right_eq_some, Option.some.injEq] at h
    rw [← (Prod.mk.inj h.2).2]
    rfl
  | writeZeroPage pageId =>
    rw [← (Prod.mk.inj (Option.some.inj h)).2]
    rfl
  | walAttached => rw [← (Prod.mk.inj (Option.some.inj h)).2]
  | walAppend txnId recType pageId slotId payload =>
    obtain ⟨wal, -, hresult⟩ := Option.map_eq_some_iff.mp h
    rw [← (Prod.mk.inj hresult).2]
  | takePageId =>
    simp only [arrayHandler, Option.ite_none_right_eq_some, Option.some.injEq] at h
    rw [← (Prod.mk.inj h.2).2]
  | nextPageId => rw [← (Prod.mk.inj (Option.some.inj h)).2]
  | setNextPageId value =>
    simp only [arrayHandler, Option.ite_none_right_eq_some, Option.some.injEq] at h
    rw [← (Prod.mk.inj h.2).2]

/-- A call that the plain array accepts. -/
theorem ExactlyRepresents.run {m : Machine} {s s' : PageArray} (h : ExactlyRepresents m s)
    {command : PageCommand} {answer : command.Answer} (hrun : arrayHandler.run command s = some (answer, s')) :
    ∃ m', poolHandler.run command m = some (answer, m') ∧ ExactlyRepresents m' s' := by
  obtain ⟨m', hexec, hrep⟩ := poolHandler_simulates command m s h.toRepresents answer s' hrun
  have hroom := PageArray.room_run hrun
  refine ⟨m', hexec, hrep, ?_, hroom ▸ h.positive⟩
  rw [poolSize_run hexec, hroom]
  exact h.frames

/-- A pool with as many frames as the array has room answers every call as the bounded array does. -/
theorem poolHandler_simulates_bounded : poolHandler.Simulates boundedHandler ExactlyRepresents := by
  intro command m s h answer s' hrun
  cases command with
  | fetchPage pageId =>
    simp only [boundedHandler, Option.ite_none_right_eq_some] at hrun
    obtain ⟨⟨hvalid, hlimit⟩, hrun⟩ := hrun
    split_ifs at hrun with havailable
    · have hfetch := havailable.fetchable hvalid hlimit
      exact @ExactlyRepresents.run m s s' h (.fetchPage pageId) answer ((if_pos hfetch).trans hrun)
    · obtain ⟨rfl, rfl⟩ := Prod.mk.inj (Option.some.inj hrun)
      obtain ⟨hnull, hrep⟩ := h.fetchPage_refused havailable
      refine ⟨_, ?_, hrep⟩
      simp only [poolHandler, hnull, Option.isSome_none]
  | pageData pageId => exact h.run hrun
  | modifyPage pageId change => exact h.run hrun
  | unpinPage pageId isDirty hint => exact h.run hrun
  | writeZeroPage pageId => exact h.run hrun
  | walAttached => exact h.run hrun
  | walAppend txnId recType pageId slotId payload => exact h.run hrun
  | takePageId => exact h.run hrun
  | nextPageId => exact h.run hrun
  | setNextPageId value => exact h.run hrun

end FtsUring
