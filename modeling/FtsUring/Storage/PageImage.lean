import FtsUring.Storage.PoolLifecycle

/-!
# Page images

The image of a page is what a fetch would find: the buffer of its frame when it is cached, and
otherwise what is in the data file.
-/

namespace FtsUring

open Foundation

/-- What a fetch of the page would find. -/
def Machine.pageImage (m : Machine) (pageId : ℕ) : Page :=
  match m.storage.bpm.frameIndex pageId with
  | some i => (m.storage.bpm.frame i).pageData
  | none => m.storage.host.diskPage pageId

/-- The image of a page whose content is certain. -/
theorem Represents.pageImage_eq {m : Machine} {s : PageArray} (h : Represents m s)
    (htouched : s.touched = ∅) {pageId : ℕ} (hvalid : pageId < invalidPageId) {page : Page}
    (hholds : s.Holds pageId page) : m.pageImage pageId = page := by
  rw [Machine.pageImage]
  cases hindex : m.storage.bpm.frameIndex pageId with
  | some i =>
    obtain ⟨-, hframe⟩ := BufferPoolManager.frameIndex_some hindex
    have hcached := h.cached i (hframe.trans_ne hvalid.ne)
    rwa [hframe, hholds, Set.mem_singleton_iff] at hcached
  | none =>
    have hclean : ¬m.storage.bpm.Dirty pageId := by
      rintro ⟨i, hdirty, hframe⟩
      have hlt := m.storage.bpm.lt_poolSize_of_frame (hframe.trans_ne hvalid.ne)
      exact BufferPoolManager.frameIndex_none hindex hlt hframe
    have hdisk := h.onDisk pageId hclean (htouched ▸ Set.notMem_empty _)
    rwa [hholds, Set.mem_singleton_iff] at hdisk

end FtsUring
