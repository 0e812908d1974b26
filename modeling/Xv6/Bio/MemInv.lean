import Xv6.Bio.System

/-!
# Cache, disk and flat store

`MemInv m store L` relates the cache and the disk to the store that they implement. `L` lists the
blocks whose latest contents are not on the disk yet: each is in a valid buffer that is pinned once.
Every other block is on the disk as the store has it, and every valid buffer that is not being modified
holds what the store has. One lemma for each operation of `Mem` says how the store and `L` change.
-/

namespace Xv6.Bio

open Function

/-- Buffer `i` is that of block `b` of `ROOTDEV`. -/
def Carries (c : Bcache) (i : BufId) (b : ℕ) : Prop :=
  (c.buf i).dev = ROOTDEV ∧ (c.buf i).blockno = b

/-- The pins of buffer `i` when the blocks of `L` are pinned. -/
def pinsOf (c : Bcache) (L : List ℕ) (i : BufId) : ℕ :=
  if (c.buf i).dev = ROOTDEV ∧ (c.buf i).blockno ∈ L then 1 else 0

/-- The cache and the disk implement `store`, with the blocks of `L` only in the cache. -/
structure MemInv (m : Mem) (store : Disk) (L : List ℕ) : Prop where
  cache : CacheInv m.cache m.call (pinsOf m.cache L)
  pinned : ∀ b ∈ L, ∃ i, Carries m.cache i b ∧ (m.cache.buf i).valid = true
  disk : ∀ b, b ∉ L → m.disk b = store b
  clean : ∀ i, (m.cache.buf i).dev = ROOTDEV → (m.cache.buf i).valid = true → m.dirty i = false →
    (m.cache.buf i).data = store (m.cache.buf i).blockno
  dirty : ∀ i, m.dirty i = true →
    ∃ p, (m.cache.buf i).lock = some p ∧ ∀ dev b, m.call p ≠ some (.fill dev b i)

/-- Buffer `i` is the same in `m'` as in `m`, apart from its reference count. -/
structure SameBuf (m m' : Mem) (i : BufId) : Prop where
  dev : (m'.cache.buf i).dev = (m.cache.buf i).dev
  blockno : (m'.cache.buf i).blockno = (m.cache.buf i).blockno
  lock : (m'.cache.buf i).lock = (m.cache.buf i).lock
  valid : (m'.cache.buf i).valid = (m.cache.buf i).valid
  data : (m'.cache.buf i).data = (m.cache.buf i).data
  dirty : m'.dirty i = m.dirty i

theorem SameBuf.pinned {m m' : Mem} {i : BufId} {b : ℕ} (h : SameBuf m m' i)
    (hi : Carries m.cache i b ∧ (m.cache.buf i).valid = true) :
    Carries m'.cache i b ∧ (m'.cache.buf i).valid = true :=
  ⟨⟨h.dev.trans hi.1.1, h.blockno.trans hi.1.2⟩, h.valid.trans hi.2⟩

theorem SameBuf.of_ne {m m' : Mem} {i j : BufId} {f : Buf → Buf}
    (h : m'.cache.buf = (m.cache.modify i f).buf) (hd : m'.dirty j = m.dirty j) (hj : j ≠ i) :
    SameBuf m m' j := by
  have heq : m'.cache.buf j = m.cache.buf j := by rw [h, m.cache.modify_of_ne i f hj]
  constructor <;> simp [heq, hd]

theorem SameBuf.of_refcnt {m m' : Mem} {i : BufId} {n : ℕ}
    (h : m'.cache.buf = (m.cache.modify i fun d => { d with refcnt := n }).buf)
    (hd : m'.dirty = m.dirty) (j : BufId) : SameBuf m m' j := by
  by_cases hj : j = i
  · subst hj
    have heq : m'.cache.buf j = { m.cache.buf j with refcnt := n } := by simp [h]
    constructor <;> simp [heq, hd]
  · exact .of_ne h (by rw [hd]) hj

theorem SameBuf.put {m : Mem} {i j : BufId} {data : Block} (hj : j ≠ i) :
    SameBuf m (m.put i data) j :=
  .of_ne rfl (by simp [Mem.put, hj]) hj

theorem SameBuf.bwrite {m : Mem} {i j : BufId} (hj : j ≠ i) : SameBuf m (m.bwrite i) j := by
  constructor <;> simp [Mem.bwrite, hj]

theorem SameBuf.release {m : Mem} {p : ℕ} {i j : BufId} (hj : j ≠ i) :
    SameBuf m (m.release p i) j :=
  .of_ne rfl rfl hj

theorem pinsOf_congr {c c' : Bcache} {L : List ℕ} (hd : ∀ i, (c'.buf i).dev = (c.buf i).dev)
    (hb : ∀ i, (c'.buf i).blockno = (c.buf i).blockno) : pinsOf c' L = pinsOf c L := by
  funext i
  rw [pinsOf, pinsOf, hd, hb]

/-- A call that fills a buffer after a change to another call was filling it before. -/
theorem fill_of_update {call : ℕ → Option Call} {p q dev b : ℕ} {j : BufId} {x : Option Call}
    (hx : x ≠ some (.fill dev b j)) (h : update call p x q = some (.fill dev b j)) :
    call q = some (.fill dev b j) := by
  by_cases hq : q = p
  · subst hq
    exact absurd (by simpa using h) hx
  · rwa [update_of_ne hq] at h

namespace MemInv

variable {m m' : Mem} {store : Disk} {L : List ℕ} {p dev b : ℕ} {i : BufId}

theorem boot (d : Disk) : MemInv (.boot d) d [] := by
  refine ⟨?_, by simp, fun _ _ => rfl, ?_, by simp [Mem.boot]⟩
  · have hp : pinsOf (Mem.boot d).cache [] = fun _ => 0 := by
      funext i
      simp [pinsOf]
    rw [hp]
    exact CacheInv.binit
  · simp [Mem.boot, binit]

theorem carries_unique (h : MemInv m store L) {j : BufId} (hi : Carries m.cache i b)
    (hj : Carries m.cache j b) : i = j :=
  h.cache.unique i j (by rw [hi.1]; decide) (hi.1.trans hj.1.symm) (hi.2.trans hj.2.symm)

theorem congr (h : MemInv m store L) (hc : CacheInv m'.cache m'.call (pinsOf m.cache L))
    (hsame : ∀ j, SameBuf m m' j) (hdisk : m'.disk = m.disk)
    (hfill : ∀ q dev b j, m'.call q = some (.fill dev b j) → m.call q = some (.fill dev b j)) :
    MemInv m' store L := by
  have hpins : pinsOf m'.cache L = pinsOf m.cache L :=
    pinsOf_congr (fun j => (hsame j).dev) fun j => (hsame j).blockno
  refine ⟨hpins ▸ hc, fun b hb => ?_, fun b hb => hdisk ▸ h.disk b hb, fun j h1 h2 h3 => ?_,
    fun j hj => ?_⟩
  · obtain ⟨j, hj⟩ := h.pinned b hb
    exact ⟨j, (hsame j).pinned hj⟩
  · rw [(hsame j).data, (hsame j).blockno]
    exact h.clean j ((hsame j).dev ▸ h1) ((hsame j).valid ▸ h2) ((hsame j).dirty ▸ h3)
  · obtain ⟨q, hq, hnf⟩ := h.dirty j ((hsame j).dirty ▸ hj)
    exact ⟨q, (hsame j).lock.trans hq, fun dev b hcall => hnf dev b (hfill q dev b j hcall)⟩

/-- What an operation that changes only buffer `i`, in the cache and among the calls that fill one,
has to show of that buffer. -/
theorem of_buf (h : MemInv m store L) (hc : CacheInv m'.cache m'.call (pinsOf m.cache L))
    (hdisk : m'.disk = m.disk) (hother : ∀ j, j ≠ i → SameBuf m m' j)
    (hfill : ∀ q dev b j, j ≠ i → m'.call q = some (.fill dev b j) →
      m.call q = some (.fill dev b j))
    (hpins : pinsOf m'.cache L i = pinsOf m.cache L i)
    (hpinned : ∀ b ∈ L, Carries m.cache i b → (m.cache.buf i).valid = true →
      Carries m'.cache i b ∧ (m'.cache.buf i).valid = true)
    (hclean : (m'.cache.buf i).dev = ROOTDEV → (m'.cache.buf i).valid = true →
      m'.dirty i = false → (m'.cache.buf i).data = store (m'.cache.buf i).blockno)
    (hdirty : m'.dirty i = true →
      ∃ p, (m'.cache.buf i).lock = some p ∧ ∀ dev b, m'.call p ≠ some (.fill dev b i)) :
    MemInv m' store L := by
  have heq : pinsOf m'.cache L = pinsOf m.cache L := by
    funext j
    by_cases hj : j = i
    · rw [hj, hpins]
    · rw [pinsOf, pinsOf, (hother j hj).dev, (hother j hj).blockno]
  refine ⟨heq ▸ hc, fun b hb => ?_, fun b hb => hdisk ▸ h.disk b hb, fun j h1 h2 h3 => ?_,
    fun j hd => ?_⟩
  · obtain ⟨j, hj, hv⟩ := h.pinned b hb
    by_cases hji : j = i
    · subst hji
      exact ⟨j, hpinned b hb hj hv⟩
    · exact ⟨j, (hother j hji).pinned ⟨hj, hv⟩⟩
  · by_cases hji : j = i
    · subst hji
      exact hclean h1 h2 h3
    · have hs := hother j hji
      rw [hs.data, hs.blockno]
      exact h.clean j (hs.dev ▸ h1) (hs.valid ▸ h2) (hs.dirty ▸ h3)
  · by_cases hji : j = i
    · subst hji
      exact hdirty hd
    · have hs := hother j hji
      obtain ⟨q, hq, hnf⟩ := h.dirty j (hs.dirty ▸ hd)
      exact ⟨q, hs.lock.trans hq, fun dev b hcall => hnf dev b (hfill q dev b j hji hcall)⟩

/-- A buffer that nobody has locked is not being modified. -/
theorem clean_of_free (h : MemInv m store L) (hfree : (m.cache.buf i).lock = none) :
    m.dirty i = false := by
  by_contra hd
  obtain ⟨q, hq, -⟩ := h.dirty i (by simpa using hd)
  simp [hfree] at hq

/-- `bget` keeps the relation and every buffer in use; the buffer returned is a valid one of the
block, unchanged, or one to be filled. -/
theorem bget (h : MemInv m store L) (hp : m.call p = none) (hget : m.bget p dev b = some m') :
    MemInv m' store L ∧ (∀ j, (m.cache.buf j).lock.isSome → SameBuf m m' j) ∧
      m'.disk = m.disk ∧ ∃ i, m'.call = update m.call p (some (.lock dev b i)) := by
  unfold Mem.bget at hget
  split at hget
  · next i c hbget =>
    cases hget
    have hcache := h.cache.bget hp hbget
    rcases CacheInv.bget_spec h.cache.complete hbget with ⟨h1, h2, rfl⟩ | ⟨hno, hzero, rfl⟩
    · -- The block is cached: only the count changes.
      have hsame : ∀ j, SameBuf m { m with
          cache := m.cache.modify i fun d => { d with refcnt := d.refcnt + 1 }
          call := update m.call p (some (.lock dev b i)) } j :=
        SameBuf.of_refcnt rfl rfl
      exact ⟨h.congr hcache hsame rfl fun q dev' b' j => fill_of_update (by simp),
        fun j _ => hsame j, rfl, i, rfl⟩
    · -- An unused buffer is recycled. It was not pinned, so its block is on the disk.
      obtain ⟨hlock, hpin, -⟩ := h.cache.of_refcnt_zero hzero
      have hclean := h.clean_of_free hlock
      refine ⟨h.of_buf (i := i) hcache rfl (fun j => .of_ne rfl rfl)
        (fun q dev' b' j _ => fill_of_update (by simp)) ?_ (fun b' hb' hi _ => ?_)
        (by simp) (by simp [hclean]), fun j hj => .of_ne rfl rfl ?_, rfl, i, rfl⟩
      · rw [hpin, pinsOf, m.cache.modify_self, if_neg]
        rintro ⟨hdev, hb⟩
        obtain ⟨k, ⟨hk1, hk2⟩, -⟩ := h.pinned b hb
        exact hno k ⟨hk1.trans hdev.symm, hk2⟩
      · rw [pinsOf, if_pos ⟨hi.1, hi.2 ▸ hb'⟩] at hpin
        omega
      · rintro rfl
        simp [hlock] at hj
  · cases hget

theorem acquire (h : MemInv m store L) (hp : m.call p = some (.lock dev b i))
    (hfree : (m.cache.buf i).lock = none) :
    MemInv (m.acquire p dev b i) store L ∧ m.dirty i = false ∧
      (dev = ROOTDEV → (m.cache.buf i).valid = true → (m.cache.buf i).data = store b) := by
  have hclean := h.clean_of_free hfree
  obtain ⟨hdev, hblock⟩ := h.cache.lockCall p dev b i hp
  refine ⟨h.of_buf (i := i) (h.cache.lock hp hfree) rfl (fun j => .of_ne rfl rfl)
    (fun q dev' b' j hj => fill_of_update ?_) (by simp [pinsOf, Mem.acquire])
    (by simp +contextual [Carries, Mem.acquire]) (fun h1 h2 _ => ?_) (by simp [Mem.acquire, hclean]), hclean,
    fun hd hv => ?_⟩
  · split_ifs <;> simp [Ne.symm hj]
  · simp only [Mem.acquire, m.cache.modify_self] at h1 h2 ⊢
    exact h.clean i h1 h2 hclean
  · rw [h.clean i (hdev.trans hd) hv hclean, hblock]

theorem fill (h : MemInv m store L) (hp : m.call p = some (.fill dev b i)) :
    MemInv (m.fill p i) store L ∧ m.dirty i = false ∧
      (dev = ROOTDEV → m.disk (m.cache.buf i).blockno = store b) := by
  obtain ⟨hdev, hblock, hlock, hinvalid⟩ := h.cache.fillCall p dev b i hp
  have hdisk : dev = ROOTDEV → m.disk (m.cache.buf i).blockno = store (m.cache.buf i).blockno := by
    intro hd
    refine h.disk _ fun hL => ?_
    obtain ⟨j, hj, hv⟩ := h.pinned _ hL
    obtain rfl := h.carries_unique hj ⟨hdev.trans hd, rfl⟩
    simp [hinvalid] at hv
  have hclean : m.dirty i = false := by
    by_contra hd
    obtain ⟨q, hq, hnf⟩ := h.dirty i (by simpa using hd)
    obtain rfl : p = q := Option.some.inj (hlock.symm.trans hq)
    exact hnf dev b hp
  refine ⟨h.of_buf (i := i) (h.cache.fill hp _) rfl (fun j => .of_ne rfl rfl)
    (fun q dev' b' j _ => fill_of_update (by simp)) (by simp [pinsOf, Mem.fill])
    (by simp [hinvalid]) (fun h1 _ _ => ?_) (by simp [Mem.fill, hclean]), hclean,
    fun hd => hblock ▸ hdisk hd⟩
  simp only [Mem.fill, m.cache.modify_self] at h1 ⊢
  exact hdisk (hdev ▸ h1)

theorem put (h : MemInv m store L) (hl : (m.cache.buf i).lock = some p) (hp : m.call p = none)
    (data : Block) : MemInv (m.put i data) store L := by
  refine h.of_buf (i := i)
    (h.cache.keep (f := fun d => { d with data := data }) rfl rfl rfl rfl rfl fun _ _ => rfl)
    rfl (fun j => .put) (fun q dev' b' j _ hq => hq) (by simp [pinsOf, Mem.put])
    (by simp +contextual [Carries, Mem.put]) (by simp [Mem.put]) fun _ => ⟨p, ?_, by simp [Mem.put, hp]⟩
  simpa [Mem.put] using hl

theorem clean_update (h : MemInv m store L) (hi : Carries m.cache i b) {j : BufId}
    (h1 : (m.cache.buf j).dev = ROOTDEV) (h2 : (m.cache.buf j).valid = true)
    (h3 : update m.dirty i false j = false) :
    (m.cache.buf j).data =
      update store b (m.cache.buf i).data (m.cache.buf j).blockno := by
  by_cases hji : j = i
  · subst hji
    rw [hi.2, update_self]
  · have hne : (m.cache.buf j).blockno ≠ b := fun e => hji (h.carries_unique ⟨h1, e⟩ hi)
    rw [update_of_ne hne]
    exact h.clean j h1 h2 (by simpa [hji] using h3)

theorem bwrite (h : MemInv m store L) (hi : Carries m.cache i b) :
    MemInv (m.bwrite i) (update store b (m.cache.buf i).data) L := by
  refine ⟨h.cache, h.pinned, fun b' hb' => ?_, fun j h1 h2 h3 => h.clean_update hi h1 h2 h3,
    fun j hj => ?_⟩
  · simp only [Mem.bwrite, hi.2]
    by_cases hbb : b' = b
    · rw [hbb, update_self, update_self]
    · rw [update_of_ne hbb, update_of_ne hbb]
      exact h.disk b' hb'
  · by_cases hji : j = i
    · simp [Mem.bwrite, hji] at hj
    · exact h.dirty j (by simpa [Mem.bwrite, hji] using hj)

theorem absorb (h : MemInv m store L) (hi : Carries m.cache i b) (hb : b ∈ L) :
    MemInv { m with dirty := update m.dirty i false }
      (update store b (m.cache.buf i).data) L := by
  refine ⟨h.cache, h.pinned, fun b' hb' => ?_, fun j h1 h2 h3 => h.clean_update hi h1 h2 h3,
    fun j hj => ?_⟩
  · have hbb : b' ≠ b := fun e => hb' (e ▸ hb)
    rw [update_of_ne hbb]
    exact h.disk b' hb'
  · by_cases hji : j = i
    · simp [hji] at hj
    · exact h.dirty j (by simpa [hji] using hj)

theorem pin (h : MemInv m store L) (hi : Carries m.cache i b) (hv : (m.cache.buf i).valid = true)
    (hb : b ∉ L) :
    MemInv { m with
      cache := bpin m.cache i
      dirty := update m.dirty i false }
      (update store b (m.cache.buf i).data) (L ++ [b]) := by
  have hsame : ∀ j, SameBuf m { m with cache := bpin m.cache i } j := SameBuf.of_refcnt rfl rfl
  have hpins : pinsOf (bpin m.cache i) (L ++ [b]) = pinsOf m.cache (L ++ [b]) :=
    pinsOf_congr (fun j => (hsame j).dev) fun j => (hsame j).blockno
  refine ⟨?_, fun b' hb' => ?_, fun b' hb' => ?_, fun j h1 h2 h3 => ?_, fun j hj => ?_⟩
  · refine h.cache.keep (f := fun d => { d with refcnt := d.refcnt + 1 }) rfl rfl rfl rfl ?_
      fun j hj => ?_
    · rw [hpins, pinsOf, pinsOf, hi.1, hi.2, if_neg (by simp [hb]), if_pos (by simp)]
    · have hne : (m.cache.buf j).dev = ROOTDEV → (m.cache.buf j).blockno ≠ b :=
        fun h1 e => hj (h.carries_unique ⟨h1, e⟩ hi)
      rw [hpins, pinsOf, pinsOf]
      refine if_congr ?_ rfl rfl
      simp only [List.mem_append, List.mem_singleton]
      tauto
  · rcases List.mem_append.mp hb' with hb' | hb'
    · obtain ⟨j, hj⟩ := h.pinned b' hb'
      exact ⟨j, (hsame j).pinned hj⟩
    · rw [List.mem_singleton.mp hb']
      exact ⟨i, (hsame i).pinned ⟨hi, hv⟩⟩
  · obtain ⟨hL, hbb⟩ : b' ∉ L ∧ b' ≠ b := by simpa using hb'
    rw [update_of_ne hbb]
    exact h.disk b' hL
  · have := h.clean_update hi ((hsame j).dev ▸ h1) ((hsame j).valid ▸ h2) h3
    rw [← (hsame j).data, ← (hsame j).blockno] at this
    exact this
  · by_cases hji : j = i
    · simp [hji] at hj
    · obtain ⟨q, hq, hnf⟩ := h.dirty j (by simpa [hji] using hj)
      exact ⟨q, (hsame j).lock.trans hq, hnf⟩

theorem unpin (h : MemInv m store L) (hi : Carries m.cache i b) (hb : b ∈ L) (hnd : L.Nodup)
    (hdisk : m.disk b = store b) :
    MemInv { m with cache := bunpin m.cache i } store (L.erase b) := by
  have hsame : ∀ j, SameBuf m { m with cache := bunpin m.cache i } j := SameBuf.of_refcnt rfl rfl
  have hpins : pinsOf (bunpin m.cache i) (L.erase b) = pinsOf m.cache (L.erase b) :=
    pinsOf_congr (fun j => (hsame j).dev) fun j => (hsame j).blockno
  refine ⟨?_, fun b' hb' => ?_, fun b' hb' => ?_, fun j h1 h2 h3 => ?_, fun j hj => ?_⟩
  · have hone : pinsOf m.cache L i = 1 := by rw [pinsOf, hi.1, hi.2, if_pos ⟨rfl, hb⟩]
    refine h.cache.keep (f := fun d => { d with refcnt := d.refcnt - 1 }) rfl rfl rfl rfl ?_
      fun j hj => ?_
    · obtain ⟨W, -, hcount⟩ := h.cache.refs i
      rw [hpins, hone, pinsOf, hi.2, if_neg fun h' => hnd.not_mem_erase h'.2]
      simp only
      omega
    · have hne : (m.cache.buf j).dev = ROOTDEV → (m.cache.buf j).blockno ≠ b :=
        fun h1 e => hj (h.carries_unique ⟨h1, e⟩ hi)
      rw [hpins, pinsOf, pinsOf]
      refine if_congr ?_ rfl rfl
      rw [hnd.mem_erase_iff]
      tauto
  · obtain ⟨j, hj⟩ := h.pinned b' (List.mem_of_mem_erase hb')
    exact ⟨j, (hsame j).pinned hj⟩
  · by_cases hbb : b' = b
    · rw [hbb]
      exact hdisk
    · exact h.disk b' fun hL => hb' ((List.mem_erase_of_ne hbb).mpr hL)
  · rw [(hsame j).data, (hsame j).blockno]
    exact h.clean j ((hsame j).dev ▸ h1) ((hsame j).valid ▸ h2) h3
  · obtain ⟨q, hq, hnf⟩ := h.dirty j hj
    exact ⟨q, (hsame j).lock.trans hq, hnf⟩

theorem release (h : MemInv m store L) (hp : m.call p = none) (hl : (m.cache.buf i).lock = some p)
    (hd : m.dirty i = false) : MemInv (m.release p i) store L := by
  refine h.of_buf (i := i) (h.cache.release hp hl) rfl (fun j => .release)
    (fun q dev' b' j _ => fill_of_update (by simp)) (by simp [pinsOf, Mem.release])
    (by simp +contextual [Carries, Mem.release]) (fun h1 h2 _ => ?_) (by simp [Mem.release, hd])
  simp only [Mem.release, m.cache.modify_self] at h1 h2 ⊢
  exact h.clean i h1 h2 hd

theorem rel (h : MemInv m store L) (hp : m.call p = some (.rel i)) :
    MemInv (m.rel p i) store L ∧ ∀ j, SameBuf m (m.rel p i) j := by
  have hsame : ∀ j, SameBuf m (m.rel p i) j :=
    SameBuf.of_refcnt (funext fun j => brelse_buf m.cache i j) rfl
  exact ⟨h.congr (h.cache.rel hp) hsame rfl fun q dev' b' j => fill_of_update (by simp), hsame⟩

end MemInv

end Xv6.Bio
