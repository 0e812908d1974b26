import Xv6.Param

/-!
# Commit and recovery of the log

The part of `kernel/log.c` that decides what a crash leaves behind: `write_log`, `write_head`,
`install_trans`, `read_head`, `commit` and `recover_from_log`. The functions run on a state with the
disk, the cached contents of blocks, the in-memory header, and the list of all `bwrite`s made so far.
A crash keeps the disk as some prefix of that list leaves it and loses everything else.

A disk relates to the transaction being committed in one of three ways: the transaction is not in it
(`Before`), the header names it and the log holds its blocks (`Committed`), or it is installed and
the header is clear (`After`). Each write of `commit` keeps the disk in one of the three, each write
of recovery does too, and a completed recovery never ends in `Committed`.
-/

namespace Xv6.Log

open Lib Function

/-- Where the log lies: `log.start`, its header block, and `log.size`, header included. -/
structure Geometry where
  start : ℕ
  size : ℕ

/-- `struct logheader`. -/
structure LogHeader where
  n : ℤ
  block : ℕ → ℕ

/-- What `commit` and `recover_from_log` run on. `cache b` is the content of the buffer that holds
block `b`, if there is one, and `writes` the blocks written to the disk so far, oldest first. -/
structure State where
  disk : Disk
  cache : ℕ → Option Block
  lh : LogHeader
  writes : List (ℕ × Block)

/-- `bread`: the cached content of a block, or the disk's. -/
def bread (s : State) (b : ℕ) : Block := (s.cache b).getD (s.disk b)

/-- `bwrite`: the buffer's content goes to the disk, in one step. -/
def bwrite (s : State) (b : ℕ) (data : Block) : State :=
  { s with
    disk := update s.disk b data
    cache := update s.cache b (some data)
    writes := s.writes ++ [(b, data)] }

/-- The loop of `install_trans` and `write_log`: for each `i` below `n`, block `src i` is read and
its content written to block `dst i`. -/
def copyBlocks (src dst : ℕ → ℕ) (n : ℕ) (s : State) : State :=
  Nat.fold n (fun i _ s => bwrite s (dst i) (bread s (src i))) s

/-- `install_trans`: copy every log block to its home location. -/
def installTrans (g : Geometry) (s : State) : State :=
  copyBlocks (fun tail => g.start + tail + 1) s.lh.block s.lh.n.toNat s

/-- `read_head`: the header block becomes the in-memory header. -/
def readHead (g : Geometry) (s : State) : State :=
  let buf := bread s g.start
  { s with lh := { n := toInt32 (buf.word 0), block := fun i => buf.word (i + 1) } }

/-- The header block as `write_head` fills it in: the count and the first `n` block numbers, over
whatever the buffer held. -/
def putHeader (lh : LogHeader) (buf : Block) : Block :=
  Nat.fold lh.n.toNat (fun i _ buf => buf.setWord (i + 1) (lh.block i))
    (buf.setWord 0 (lh.n % 2 ^ 32).toNat)

/-- `write_head`: the in-memory header goes to the disk. -/
def writeHead (g : Geometry) (s : State) : State :=
  bwrite s g.start (putHeader s.lh (bread s g.start))

/-- `write_log`: copy every modified block from the cache to the log. -/
def writeLog (g : Geometry) (s : State) : State :=
  copyBlocks s.lh.block (fun tail => g.start + tail + 1) s.lh.n.toNat s

/-- `log.lh.n = 0`. -/
def clearHeader (s : State) : State := { s with lh := { s.lh with n := 0 } }

/-- `commit`. -/
def commit (g : Geometry) (s : State) : State :=
  if 0 < s.lh.n then
    writeHead g (clearHeader (installTrans g (writeHead g (writeLog g s))))
  else s

/-- `recover_from_log`. -/
def recoverFromLog (g : Geometry) (s : State) : State :=
  writeHead g (clearHeader (installTrans g (readHead g s)))

/-- The state in which recovery starts on a disk: nothing cached, the in-memory header zeroed. -/
def bootState (d : Disk) : State := ⟨d, fun _ => none, ⟨0, fun _ => 0⟩, []⟩

/-- The disk after a list of writes. -/
def applyWrites : List (ℕ × Block) → Disk → Disk
  | [], d => d
  | (b, data) :: ws, d => applyWrites ws (update d b data)

/-- The disk that a crash leaves after the first `k` of the writes. -/
def crashAfter (d : Disk) (ws : List (ℕ × Block)) (k : ℕ) : Disk := applyWrites (ws.take k) d

/-- The disks that recovery can end with: it completes, or crashes after some of its writes and is
started again on what they left. -/
inductive Recovers (g : Geometry) : Disk → Disk → Prop
  | complete (d : Disk) : Recovers g d (recoverFromLog g (bootState d)).disk
  | crash (d : Disk) (k : ℕ) (d' : Disk) :
      Recovers g (crashAfter d (recoverFromLog g (bootState d)).writes k) d' → Recovers g d d'

/-! ## Lists of writes -/

theorem applyWrites_append (ws vs : List (ℕ × Block)) (d : Disk) :
    applyWrites (ws ++ vs) d = applyWrites vs (applyWrites ws d) := by
  induction ws generalizing d with
  | nil => rfl
  | cons w ws ih => exact ih _

theorem applyWrites_induction {P : Disk → Prop} {ws : List (ℕ × Block)} {d : Disk} (hd : P d)
    (step : ∀ w ∈ ws, ∀ d, P d → P (update d w.1 w.2)) : P (applyWrites ws d) := by
  induction ws generalizing d with
  | nil => exact hd
  | cons w ws ih => exact ih (step w List.mem_cons_self d hd) fun v hv => step v (List.mem_cons_of_mem w hv)

theorem applyWrites_of_not_mem {ws : List (ℕ × Block)} {d : Disk} {b : ℕ}
    (h : ∀ w ∈ ws, w.1 ≠ b) : applyWrites ws d b = d b := by
  refine applyWrites_induction (P := fun d' => d' b = d b) rfl fun w hw d' hd' => ?_
  rw [update_of_ne (h w hw).symm]
  exact hd'

theorem applyWrites_map_range (dst : ℕ → ℕ) {v : ℕ → Block} {n : ℕ} {d : Disk}
    (inj : ∀ i j, i < n → j < n → dst i = dst j → i = j) {i : ℕ} (hi : i < n) :
    applyWrites ((List.range n).map fun i => (dst i, v i)) d (dst i) = v i := by
  induction n with
  | zero => omega
  | succ n ih =>
    rw [List.range_succ, List.map_append, applyWrites_append]
    simp only [List.map_cons, List.map_nil, applyWrites]
    rcases Nat.lt_succ_iff_lt_or_eq.mp hi with hlt | rfl
    · have hne : dst i ≠ dst n := fun h => by
        have := inj i n (by omega) (by omega) h
        omega
      rw [update_of_ne hne]
      exact ih (fun a b ha hb => inj a b (by omega) (by omega)) hlt
    · exact update_self ..

/-! ## The loops -/

theorem bread_bwrite (s : State) (b : ℕ) (data : Block) (c : ℕ) :
    bread (bwrite s b data) c = if c = b then data else bread s c := by
  simp only [bread, bwrite, update_apply]
  split_ifs <;> rfl

/-- The copying loop writes, in order, what its sources held when it started, as long as it
overwrites none of them. -/
theorem copyBlocks_spec (src dst : ℕ → ℕ) (n : ℕ) (s : State)
    (hne : ∀ i j, i < n → j < n → dst j ≠ src i) :
    (copyBlocks src dst n s).writes =
        s.writes ++ (List.range n).map (fun i => (dst i, bread s (src i))) ∧
      (copyBlocks src dst n s).lh = s.lh ∧
      ∀ b, (∀ j, j < n → dst j ≠ b) → bread (copyBlocks src dst n s) b = bread s b := by
  induction n with
  | zero => simp [copyBlocks]
  | succ n ih =>
    obtain ⟨hw, hlh, hb⟩ := ih fun i j hi hj => hne i j (by omega) (by omega)
    have hstep : copyBlocks src dst (n + 1) s =
        bwrite (copyBlocks src dst n s) (dst n) (bread (copyBlocks src dst n s) (src n)) :=
      Nat.fold_succ ..
    have hsrc : bread (copyBlocks src dst n s) (src n) = bread s (src n) :=
      hb _ fun j hj => hne n j (by omega) (by omega)
    rw [hstep, hsrc]
    refine ⟨?_, hlh, fun b hnb => ?_⟩
    · simp only [bwrite]
      rw [hw, List.range_succ, List.map_append, List.append_assoc]
      rfl
    · rw [bread_bwrite, if_neg (hnb n (Nat.lt_succ_self n)).symm]
      exact hb b fun j hj => hnb j (by omega)

theorem copyBlocks_read (src dst : ℕ → ℕ) (n : ℕ) (s : State)
    (hne : ∀ i j, i < n → j < n → dst j ≠ src i)
    (inj : ∀ i j, i < n → j < n → dst i = dst j → i = j) (i : ℕ) (hi : i < n) :
    bread (copyBlocks src dst n s) (dst i) = bread s (src i) := by
  induction n with
  | zero => omega
  | succ n ih =>
    obtain ⟨-, -, hb⟩ := copyBlocks_spec src dst n s fun i j hi hj =>
      hne i j (by omega) (by omega)
    have hstep : copyBlocks src dst (n + 1) s =
        bwrite (copyBlocks src dst n s) (dst n) (bread (copyBlocks src dst n s) (src n)) :=
      Nat.fold_succ ..
    have hsrc : bread (copyBlocks src dst n s) (src n) = bread s (src n) :=
      hb _ fun j hj => hne n j (by omega) (by omega)
    rw [hstep, hsrc, bread_bwrite]
    rcases Nat.lt_succ_iff_lt_or_eq.mp hi with hlt | rfl
    · have hdst : dst i ≠ dst n := fun h => by
        have := inj i n hi (Nat.lt_succ_self n) h
        omega
      rw [if_neg hdst]
      exact ih (fun a b ha hb => hne a b (by omega) (by omega))
        (fun a b ha hb => inj a b (by omega) (by omega)) hlt
    · exact if_pos rfl

theorem putHeader_word (lh : LogHeader) (buf : Block) (hn : lh.n.toNat < 256) (j : ℕ) :
    (putHeader lh buf).word j =
      if j = 0 then (lh.n % 2 ^ 32).toNat % 2 ^ 32
      else if j ≤ lh.n.toNat then lh.block (j - 1) % 2 ^ 32 else buf.word j := by
  unfold putHeader
  generalize lh.n.toNat = m at hn
  induction m with
  | zero =>
    rw [Nat.fold_zero, Block.word_setWord _ (by omega)]
    split_ifs <;> first | rfl | omega
  | succ m ih =>
    rw [Nat.fold_succ, Block.word_setWord _ (by omega), ih (by omega)]
    split_ifs with h1 h2 h3 h4 h5 h6 <;> first | omega | rfl | simp [h1]

/-! ## The three relations of a disk to a transaction -/

/-- The count in the header block of a disk. -/
def diskCount (g : Geometry) (d : Disk) : ℤ := toInt32 ((d g.start).word 0)

/-- A block outside the log area. -/
def Outside (g : Geometry) (b : ℕ) : Prop := b < g.start ∨ g.start + g.size ≤ b

/-- An in-memory header that `commit` can be called with: its blocks fit in the log area and in the
header's list, and they are pairwise distinct block numbers outside the log area. -/
structure HeaderOk (g : Geometry) (lh : LogHeader) : Prop where
  nonneg : 0 ≤ lh.n
  le_logsize : lh.n ≤ LOGSIZE
  lt_size : lh.n ≤ (g.size : ℤ) - 1
  uint : ∀ i, i < lh.n.toNat → lh.block i < 2 ^ 32
  outside : ∀ i, i < lh.n.toNat → Outside g (lh.block i)
  distinct : ∀ i j, i < lh.n.toNat → j < lh.n.toNat → lh.block i = lh.block j → i = j

/-- The transaction is not on the disk `d`: the header is clear and the blocks outside the log are
those of `d0`. -/
structure Before (g : Geometry) (d0 d : Disk) : Prop where
  count : diskCount g d = 0
  same : ∀ b, Outside g b → d b = d0 b

/-- The transaction is in the log of `d`: the header names its blocks, the log holds their new
contents `v`, and the blocks outside the log and the transaction are those of `d0`. -/
structure Committed (g : Geometry) (lh : LogHeader) (v : ℕ → Block) (d0 d : Disk) : Prop where
  count : diskCount g d = lh.n
  names : ∀ i, i < lh.n.toNat → (d g.start).word (i + 1) = lh.block i
  slots : ∀ i, i < lh.n.toNat → d (g.start + i + 1) = v i
  same : ∀ b, Outside g b → (∀ i, i < lh.n.toNat → lh.block i ≠ b) → d b = d0 b

/-- The transaction is installed on `d` and the header is clear. -/
structure After (g : Geometry) (lh : LogHeader) (v : ℕ → Block) (d0 d : Disk) : Prop where
  count : diskCount g d = 0
  new : ∀ i, i < lh.n.toNat → d (lh.block i) = v i
  same : ∀ b, Outside g b → (∀ i, i < lh.n.toNat → lh.block i ≠ b) → d b = d0 b

section Phases

variable {g : Geometry} {lh : LogHeader} {v : ℕ → Block} {d0 d : Disk}

theorem HeaderOk.toNat_lt_size (ok : HeaderOk g lh) : lh.n.toNat < g.size := by
  have := ok.lt_size
  have := ok.nonneg
  omega

theorem HeaderOk.toNat_lt (ok : HeaderOk g lh) : lh.n.toNat < 256 := by
  have := ok.le_logsize
  simp only [LOGSIZE, MAXOPBLOCKS] at this
  omega

theorem HeaderOk.block_ne (ok : HeaderOk g lh) {i j : ℕ} (hi : i < lh.n.toNat)
    (hj : j < g.size) : lh.block i ≠ g.start + j := by
  rcases ok.outside i hi with h | h <;> omega

theorem Before.update_slot (h : Before g d0 d) {b : ℕ} {x : Block} (h1 : g.start < b)
    (h2 : b < g.start + g.size) : Before g d0 (update d b x) := by
  refine ⟨?_, fun c hc => ?_⟩
  · unfold diskCount
    rw [update_of_ne (by omega)]
    exact h.count
  · have hcb : c ≠ b := by rcases hc with hc | hc <;> omega
    rw [update_of_ne hcb]
    exact h.same c hc

theorem Committed.update_home (ok : HeaderOk g lh) (h : Committed g lh v d0 d) {i : ℕ}
    (hi : i < lh.n.toNat) : Committed g lh v d0 (update d (lh.block i) (v i)) := by
  have hsize := ok.toNat_lt_size
  have hstart : g.start ≠ lh.block i := by
    have := ok.block_ne hi (show 0 < g.size by omega)
    omega
  refine ⟨?_, fun j hj => ?_, fun j hj => ?_, fun b hb hnb => ?_⟩
  · unfold diskCount
    rw [update_of_ne hstart]
    exact h.count
  · rw [update_of_ne hstart]
    exact h.names j hj
  · have hne : g.start + j + 1 ≠ lh.block i := by
      have := ok.block_ne hi (show j + 1 < g.size by omega)
      omega
    rw [update_of_ne hne]
    exact h.slots j hj
  · rw [update_of_ne (hnb i hi).symm]
    exact h.same b hb hnb

theorem Committed.clear (ok : HeaderOk g lh) (h : Committed g lh v d0 d)
    (hnew : ∀ i, i < lh.n.toNat → d (lh.block i) = v i) {x : Block} (hx : x.word 0 = 0) :
    After g lh v d0 (update d g.start x) := by
  have hsize := ok.toNat_lt_size
  refine ⟨?_, fun i hi => ?_, fun b hb hnb => ?_⟩
  · unfold diskCount
    rw [update_self, hx]
    rfl
  · have hne : lh.block i ≠ g.start := by
      have := ok.block_ne hi (show 0 < g.size by omega)
      omega
    rw [update_of_ne hne]
    exact hnew i hi
  · have hne : b ≠ g.start := by rcases hb with hb | hb <;> omega
    rw [update_of_ne hne]
    exact h.same b hb hnb

/-- The writes that finish a committed transaction: its blocks go home in order, then the header is
cleared. At every prefix the transaction is still in the log or completely installed, and after all
of them it is installed. -/
theorem Committed.finish (ok : HeaderOk g lh) (h : Committed g lh v d0 d) {x : Block}
    (hx : x.word 0 = 0) {ws : List (ℕ × Block)}
    (hws : ws = (List.range lh.n.toNat).map (fun i => (lh.block i, v i)) ++ [(g.start, x)]) :
    (∀ k, Committed g lh v d0 (crashAfter d ws k) ∨ After g lh v d0 (crashAfter d ws k)) ∧
      After g lh v d0 (applyWrites ws d) := by
  subst hws
  have keep : ∀ us : List (ℕ × Block),
      (∀ w ∈ us, w ∈ (List.range lh.n.toNat).map fun i => (lh.block i, v i)) →
        Committed g lh v d0 (applyWrites us d) := by
    intro us hus
    refine applyWrites_induction h fun w hw d' hd' => ?_
    obtain ⟨i, hi, rfl⟩ := List.mem_map.mp (hus w hw)
    exact hd'.update_home ok (List.mem_range.mp hi)
  have last : After g lh v d0 (applyWrites
      ((List.range lh.n.toNat).map (fun i => (lh.block i, v i)) ++ [(g.start, x)]) d) := by
    rw [applyWrites_append]
    exact (keep _ fun w hw => hw).clear ok (fun i hi => applyWrites_map_range _ ok.distinct hi) hx
  refine ⟨fun k => ?_, last⟩
  unfold crashAfter
  rcases Nat.lt_or_ge lh.n.toNat k with hk | hk
  · right
    rw [List.take_of_length_le (by simp; omega)]
    exact last
  · left
    rw [List.take_append_of_le_length (by simpa using hk)]
    exact keep _ fun w hw => List.mem_of_mem_take hw

end Phases

/-! ## What `commit` and `recover_from_log` write -/

section Writes

variable (g : Geometry)

theorem writeHead_clear (s : State) : ∃ x : Block, x.word 0 = 0 ∧
    (writeHead g (clearHeader s)).writes = s.writes ++ [(g.start, x)] := by
  refine ⟨putHeader { s.lh with n := 0 } (bread s g.start), ?_, rfl⟩
  rw [putHeader_word _ _ (by simp)]
  simp

/-- The writes of recovery on a disk whose header names no log block: each named block is installed,
then the header is cleared. -/
theorem recover_writes (d : Disk)
    (hne : ∀ i j, i < (diskCount g d).toNat → j < (diskCount g d).toNat →
      (d g.start).word (j + 1) ≠ g.start + i + 1) :
    ∃ x : Block, x.word 0 = 0 ∧ (recoverFromLog g (bootState d)).writes =
      (List.range (diskCount g d).toNat).map
        (fun i => ((d g.start).word (i + 1), d (g.start + i + 1))) ++ [(g.start, x)] := by
  obtain ⟨hw, -, -⟩ := copyBlocks_spec (fun tail => g.start + tail + 1)
    (fun i => (d g.start).word (i + 1)) (diskCount g d).toNat (readHead g (bootState d)) hne
  obtain ⟨x, hx, hx'⟩ := writeHead_clear g (installTrans g (readHead g (bootState d)))
  have hlh : (readHead g (bootState d)).lh = ⟨diskCount g d, fun i => (d g.start).word (i + 1)⟩ :=
    rfl
  refine ⟨x, hx, ?_⟩
  rw [recoverFromLog, hx', installTrans, hlh, hw]
  rfl

/-- The writes of `commit`: the new contents go to the log, the header names them, they go home, and
the header is cleared. -/
theorem commit_writes {s : State} (ok : HeaderOk g s.lh) (hpos : 0 < s.lh.n)
    (hs : s.writes = []) :
    ∃ x y : Block, x.word 0 = 0 ∧ y.word 0 = s.lh.n.toNat ∧
      (∀ i, i < s.lh.n.toNat → y.word (i + 1) = s.lh.block i) ∧
      (commit g s).writes =
        ((List.range s.lh.n.toNat).map fun i => (g.start + i + 1, bread s (s.lh.block i))) ++
        ((g.start, y) :: (((List.range s.lh.n.toNat).map fun i =>
          (s.lh.block i, bread s (s.lh.block i))) ++ [(g.start, x)])) := by
  have hsize := ok.toNat_lt_size
  have hn := ok.toNat_lt
  have hslot : ∀ i j, i < s.lh.n.toNat → j < s.lh.n.toNat →
      g.start + j + 1 ≠ s.lh.block i := fun i j hi hj h =>
    ok.block_ne hi (show j + 1 < g.size by omega) (by omega)
  obtain ⟨hw1, hlh1, -⟩ := copyBlocks_spec s.lh.block (fun tail => g.start + tail + 1)
    s.lh.n.toNat s hslot
  have hr1 := copyBlocks_read s.lh.block (fun tail => g.start + tail + 1) s.lh.n.toNat s hslot
    fun a b _ _ hab => by omega
  rw [show copyBlocks s.lh.block (fun tail => g.start + tail + 1) s.lh.n.toNat s = writeLog g s
    from rfl] at hw1 hlh1 hr1
  generalize hs1 : writeLog g s = s1 at hw1 hlh1 hr1
  -- The log blocks hold the new contents, so that installing reads them back.
  have hread : ∀ i, i < s.lh.n.toNat →
      bread (writeHead g s1) (g.start + i + 1) = bread s (s.lh.block i) := by
    intro i hi
    rw [writeHead, bread_bwrite, if_neg (by omega)]
    exact hr1 i hi
  obtain ⟨hw2, -, -⟩ := copyBlocks_spec (fun tail => g.start + tail + 1) s.lh.block
    s.lh.n.toNat (writeHead g s1) fun i j hi hj h => hslot j i hj hi h.symm
  have hinst : installTrans g (writeHead g s1) =
      copyBlocks (fun tail => g.start + tail + 1) s.lh.block s.lh.n.toNat (writeHead g s1) := by
    rw [← hlh1]
    rfl
  obtain ⟨x, hx, hx'⟩ := writeHead_clear g (installTrans g (writeHead g s1))
  refine ⟨x, putHeader s1.lh (bread s1 g.start), hx, ?_, ?_, ?_⟩
  · rw [putHeader_word _ _ (by rw [hlh1]; exact hn), hlh1, if_pos rfl]
    have := ok.le_logsize
    simp only [LOGSIZE, MAXOPBLOCKS] at this
    omega
  · intro i hi
    rw [putHeader_word _ _ (by rw [hlh1]; exact hn), hlh1, if_neg (by omega), if_pos (by omega)]
    exact Nat.mod_eq_of_lt (ok.uint i hi)
  · unfold commit
    rw [if_pos hpos, hs1, hx', hinst, hw2]
    have hmap : (List.range s.lh.n.toNat).map
          (fun i => (s.lh.block i, bread (writeHead g s1) (g.start + i + 1))) =
        (List.range s.lh.n.toNat).map fun i => (s.lh.block i, bread s (s.lh.block i)) :=
      List.map_congr_left fun i hi => by rw [hread i (List.mem_range.mp hi)]
    rw [hmap]
    simp only [writeHead, bwrite]
    rw [hw1, hs]
    simp only [List.nil_append, List.append_assoc, List.cons_append]

/-- The disk of the state is what its writes make of the initial disk. -/
def Tracks (d : Disk) (s : State) : Prop := s.disk = applyWrites s.writes d

theorem Tracks.bwrite {d : Disk} {s : State} (h : Tracks d s) (b : ℕ) (data : Block) :
    Tracks d (bwrite s b data) := by
  unfold Tracks at h ⊢
  simp only [Log.bwrite]
  rw [applyWrites_append, ← h]
  rfl

theorem Tracks.copyBlocks {d : Disk} {s : State} (h : Tracks d s) (src dst : ℕ → ℕ) (n : ℕ) :
    Tracks d (copyBlocks src dst n s) := by
  induction n with
  | zero => exact h
  | succ n ih =>
    unfold Log.copyBlocks
    rw [Nat.fold_succ]
    exact ih.bwrite _ _

theorem Tracks.installTrans {d : Disk} {s : State} (h : Tracks d s) :
    Tracks d (installTrans g s) := h.copyBlocks _ _ _

theorem Tracks.writeHead {d : Disk} {s : State} (h : Tracks d s) : Tracks d (writeHead g s) :=
  h.bwrite _ _

theorem Tracks.clearHeader {d : Disk} {s : State} (h : Tracks d s) : Tracks d (clearHeader s) := h

theorem recover_disk (d : Disk) : (recoverFromLog g (bootState d)).disk =
    applyWrites (recoverFromLog g (bootState d)).writes d := by
  have h0 : Tracks d (readHead g (bootState d)) := rfl
  exact (h0.installTrans g).clearHeader.writeHead g

theorem commit_disk (s : State) (hs : s.writes = []) :
    (commit g s).disk = applyWrites (commit g s).writes s.disk := by
  have h0 : Tracks s.disk s := by rw [Tracks, hs]; rfl
  unfold commit
  split_ifs
  · have h1 : Tracks s.disk (writeLog g s) := h0.copyBlocks _ _ _
    exact ((h1.writeHead g).installTrans g).clearHeader.writeHead g
  · exact h0

end Writes

/-! ## Crash atomicity -/

section Crash

variable {g : Geometry} {lh : LogHeader} {v : ℕ → Block} {d0 d : Disk}

/-- Whatever its writes so far, recovery on a disk with a clear header leaves the header clear and
every other block alone. -/
theorem recover_of_clear (hd : diskCount g d = 0) (ws : List (ℕ × Block))
    (hws : ∀ w ∈ ws, w ∈ (recoverFromLog g (bootState d)).writes) :
    diskCount g (applyWrites ws d) = 0 ∧ ∀ b, b ≠ g.start → applyWrites ws d b = d b := by
  obtain ⟨x, hx, hw⟩ := recover_writes g d (by simp [hd])
  rw [hd] at hw
  simp only [Int.toNat_zero, List.range_zero, List.map_nil, List.nil_append] at hw
  rw [hw] at hws
  refine ⟨?_, fun b hb => applyWrites_of_not_mem fun w hw => ?_⟩
  · refine applyWrites_induction (P := fun d => diskCount g d = 0) hd fun w hw d' _ => ?_
    obtain rfl := List.mem_singleton.mp (hws w hw)
    simp [diskCount, hx, toInt32]
  · obtain rfl := List.mem_singleton.mp (hws w hw)
    exact hb.symm

theorem Before.recover (h : Before g d0 d) (hsize : 0 < g.size) (ws : List (ℕ × Block))
    (hws : ∀ w ∈ ws, w ∈ (recoverFromLog g (bootState d)).writes) :
    Before g d0 (applyWrites ws d) := by
  obtain ⟨hc, hs⟩ := recover_of_clear h.count ws hws
  refine ⟨hc, fun b hb => ?_⟩
  rw [hs b (by rcases hb with hb | hb <;> omega)]
  exact h.same b hb

theorem After.recover (ok : HeaderOk g lh) (h : After g lh v d0 d) (ws : List (ℕ × Block))
    (hws : ∀ w ∈ ws, w ∈ (recoverFromLog g (bootState d)).writes) :
    After g lh v d0 (applyWrites ws d) := by
  have hsize := ok.toNat_lt_size
  obtain ⟨hc, hs⟩ := recover_of_clear h.count ws hws
  refine ⟨hc, fun i hi => ?_, fun b hb hnb => ?_⟩
  · rw [hs _ (ok.block_ne hi (show 0 < g.size by omega))]
    exact h.new i hi
  · rw [hs b (by rcases hb with hb | hb <;> omega)]
    exact h.same b hb hnb

/-- What recovery writes on a disk with a committed transaction finishes that transaction. -/
theorem Committed.recover (ok : HeaderOk g lh) (h : Committed g lh v d0 d) :
    (∀ k, Committed g lh v d0 (crashAfter d (recoverFromLog g (bootState d)).writes k) ∨
        After g lh v d0 (crashAfter d (recoverFromLog g (bootState d)).writes k)) ∧
      After g lh v d0 (recoverFromLog g (bootState d)).disk := by
  have hsize := ok.toNat_lt_size
  obtain ⟨x, hx, hw⟩ := recover_writes g d fun i j hi hj => by
    rw [h.count] at hi hj
    rw [h.names j hj]
    exact ok.block_ne hj (show i + 1 < g.size by omega)
  rw [recover_disk]
  refine h.finish ok hx ?_
  rw [hw, h.count]
  refine congrArg (· ++ [(g.start, x)]) (List.map_congr_left fun i hi => ?_)
  rw [h.names i (List.mem_range.mp hi), h.slots i (List.mem_range.mp hi)]

/-- Recovery, through any number of crashes of its own, leaves a transaction that was not on the
disk off it, and installs one that was committed. -/
theorem recovers_spec (d0 : Disk) (ok : HeaderOk g lh) {d d' : Disk} (hr : Recovers g d d') :
    (Before g d0 d → Before g d0 d') ∧
      (Committed g lh v d0 d ∨ After g lh v d0 d → After g lh v d0 d') := by
  have hsize := ok.toNat_lt_size
  induction hr with
  | complete d =>
    refine ⟨fun h => ?_, ?_⟩
    · rw [recover_disk]
      exact h.recover (by omega) _ fun w hw => hw
    · rintro (h | h)
      · exact (h.recover ok).2
      · rw [recover_disk]
        exact h.recover ok _ fun w hw => hw
  | crash d k d' _ ih =>
    refine ⟨fun h => ih.1 (h.recover (by omega) _ fun w hw => List.mem_of_mem_take hw), ?_⟩
    rintro (h | h)
    · exact ih.2 ((h.recover ok).1 k)
    · exact ih.2 (.inr (h.recover ok _ fun w hw => List.mem_of_mem_take hw))

/-- After any prefix of the writes of `commit` on a disk with a clear header, the transaction is off
the disk, or in the log, or installed. After all of them it is installed or was empty. -/
theorem commit_crash {s : State} (ok : HeaderOk g s.lh) (hd : diskCount g s.disk = 0)
    (hs : s.writes = []) (k : ℕ) :
    Before g s.disk (crashAfter s.disk (commit g s).writes k) ∨
      Committed g s.lh (fun i => bread s (s.lh.block i)) s.disk
        (crashAfter s.disk (commit g s).writes k) ∨
      After g s.lh (fun i => bread s (s.lh.block i)) s.disk
        (crashAfter s.disk (commit g s).writes k) := by
  have hsize := ok.toNat_lt_size
  have hbefore : Before g s.disk s.disk := ⟨hd, fun _ _ => rfl⟩
  rcases lt_or_ge 0 s.lh.n with hpos | hnpos
  · obtain ⟨x, y, hx, hy0, hy, hw⟩ := commit_writes g ok hpos hs
    rw [hw]
    -- While the log blocks are written, the header stays clear.
    have hlog : ∀ us : List (ℕ × Block),
        (∀ w ∈ us, w ∈ (List.range s.lh.n.toNat).map fun i =>
          (g.start + i + 1, bread s (s.lh.block i))) → Before g s.disk (applyWrites us s.disk) := by
      intro us hus
      refine applyWrites_induction hbefore fun w hw d' hd' => ?_
      obtain ⟨i, hi, rfl⟩ := List.mem_map.mp (hus w hw)
      have := List.mem_range.mp hi
      exact hd'.update_slot (by simp only; omega) (by simp only; omega)
    unfold crashAfter
    rw [List.take_append, applyWrites_append, List.length_map, List.length_range]
    rcases Nat.lt_or_ge s.lh.n.toNat k with hk | hk
    · -- The header has been written: what remains finishes the transaction.
      right
      have hfull : ((List.range s.lh.n.toNat).map fun i =>
          (g.start + i + 1, bread s (s.lh.block i))).take k = (List.range s.lh.n.toNat).map fun i =>
            (g.start + i + 1, bread s (s.lh.block i)) :=
        List.take_of_length_le (by simpa using hk.le)
      rw [hfull, show k - s.lh.n.toNat = (k - s.lh.n.toNat - 1) + 1 by omega, List.take_succ_cons]
      have hcom : Committed g s.lh (fun i => bread s (s.lh.block i)) s.disk
          (update (applyWrites ((List.range s.lh.n.toNat).map fun i =>
            (g.start + i + 1, bread s (s.lh.block i))) s.disk) g.start y) := by
        refine ⟨?_, fun i hi => ?_, fun i hi => ?_, fun b hb _ => ?_⟩
        · have := ok.le_logsize
          simp only [LOGSIZE, MAXOPBLOCKS] at this
          rw [diskCount, update_self, hy0, toInt32, if_pos (by omega)]
          omega
        · rw [update_self]
          exact hy i hi
        · rw [update_of_ne (by omega)]
          exact applyWrites_map_range (fun i => g.start + i + 1)
            (fun a b _ _ hab => by omega) hi
        · rw [update_of_ne (by rcases hb with hb | hb <;> omega)]
          exact (hlog _ fun w hw => hw).same b hb
      exact (hcom.finish ok hx rfl).1 _
    · left
      rw [show k - s.lh.n.toNat = 0 by omega, List.take_zero]
      exact hlog _ fun w hw => List.mem_of_mem_take hw
  · left
    have hcommit : commit g s = s := if_neg (by omega)
    rw [hcommit, hs]
    simpa [crashAfter, applyWrites] using hbefore

/-- The disks on which a transaction can start: the header is clear when the file system is made,
and earlier transactions were committed, or were cut by a crash and recovered. -/
inductive Ready (g : Geometry) : Disk → Prop
  | format (d : Disk) : diskCount g d = 0 → Ready g d
  | commit (s : State) : Ready g s.disk → s.writes = [] → HeaderOk g s.lh →
      Ready g (commit g s).disk
  | crash (s : State) (k : ℕ) (d' : Disk) : Ready g s.disk → s.writes = [] → HeaderOk g s.lh →
      Recovers g (crashAfter s.disk (Log.commit g s).writes k) d' → Ready g d'

theorem Ready.count (h : Ready g d) : diskCount g d = 0 := by
  induction h with
  | format d hd => exact hd
  | commit s _ hs ok ih =>
    rw [commit_disk g s hs]
    rcases lt_or_ge 0 s.lh.n with hpos | hnpos
    · obtain ⟨x, y, hx, -, -, hw⟩ := commit_writes g ok hpos hs
      rw [hw, ← List.cons_append, ← List.append_assoc, applyWrites_append]
      simp [applyWrites, diskCount, hx, toInt32]
    · have hcommit : Log.commit g s = s := if_neg (by omega)
      rw [hcommit, hs]
      exact ih
  | crash s k d' _ hs ok hr ih =>
    obtain ⟨hbefore, hafter⟩ := recovers_spec s.disk
      (v := fun i => bread s (s.lh.block i)) ok hr
    rcases commit_crash ok ih hs k with h | h
    · exact (hbefore h).count
    · exact (hafter h).count

/-- Crash atomicity of commit and recovery. A commit starts on a disk reached from a formatted one by
commits, crashes and recoveries, and is cut after any number `k` of its disk writes. Recovery runs
on what is left, itself cut any number of times, and ends with `d'`. Then the home blocks are all as
before the commit or all as cached at its start, the blocks outside the log and the transaction are
unchanged, and the header on the disk is clear. -/
theorem commit_crash_atomic (s : State) (hready : Ready g s.disk) (hs : s.writes = [])
    (ok : HeaderOk g s.lh) (k : ℕ) (d' : Disk)
    (hr : Recovers g (crashAfter s.disk (commit g s).writes k) d') :
    ((∀ i, i < s.lh.n.toNat → d' (s.lh.block i) = s.disk (s.lh.block i)) ∨
        (∀ i, i < s.lh.n.toNat → d' (s.lh.block i) = bread s (s.lh.block i))) ∧
      (∀ b, Outside g b → (∀ i, i < s.lh.n.toNat → s.lh.block i ≠ b) → d' b = s.disk b) ∧
      diskCount g d' = 0 := by
  obtain ⟨hbefore, hafter⟩ := recovers_spec s.disk
    (v := fun i => bread s (s.lh.block i)) ok hr
  rcases commit_crash ok hready.count hs k with h | h
  · have h' := hbefore h
    exact ⟨.inl fun i hi => h'.same _ (ok.outside i hi), fun b hb _ => h'.same b hb, h'.count⟩
  · have h' := hafter h
    exact ⟨.inr h'.new, h'.same, h'.count⟩

end Crash

/-- A commit about to start on a zeroed disk: blocks 50 and 51 are modified in the cache. -/
def twoBlocks : State where
  disk := fun _ => Bytes.fill BSIZE 0
  cache := fun b =>
    if b = 50 then some (Bytes.fill BSIZE 1)
    else if b = 51 then some (Bytes.fill BSIZE 2)
    else none
  lh := ⟨2, fun i => 50 + i⟩
  writes := []

/-- What recovery leaves when `twoBlocks` crashes after its log and header writes. -/
def recoveredTwoBlocks : Disk :=
  (recoverFromLog ⟨2, 30⟩
    (bootState (crashAfter twoBlocks.disk (commit ⟨2, 30⟩ twoBlocks).writes 3))).disk

/-- After the crash of `twoBlocks` both blocks are old or both are new, and the header is clear. -/
theorem commit_crash_atomic_twoBlocks :
    (recoveredTwoBlocks 50 = Bytes.fill BSIZE 0 ∧ recoveredTwoBlocks 51 = Bytes.fill BSIZE 0 ∨
      recoveredTwoBlocks 50 = Bytes.fill BSIZE 1 ∧ recoveredTwoBlocks 51 = Bytes.fill BSIZE 2) ∧
      diskCount ⟨2, 30⟩ recoveredTwoBlocks = 0 := by
  have hready : Ready ⟨2, 30⟩ twoBlocks.disk := .format _ (by decide)
  have ok : HeaderOk ⟨2, 30⟩ twoBlocks.lh := by
    constructor <;> simp [twoBlocks, LOGSIZE, MAXOPBLOCKS, Outside] <;> omega
  obtain ⟨hhome, -, hcount⟩ :=
    commit_crash_atomic twoBlocks hready rfl ok 3 recoveredTwoBlocks (.complete _)
  refine ⟨?_, hcount⟩
  rcases hhome with h | h
  · exact .inl ⟨h 0 (by decide), h 1 (by decide)⟩
  · exact .inr ⟨h 0 (by decide), h 1 (by decide)⟩

end Xv6.Log
