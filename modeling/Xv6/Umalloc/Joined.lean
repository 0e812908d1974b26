import Xv6.Umalloc.System

/-!
# Free memory is joined

`free` joins a block with its neighbours, so that free memory without a gap is always one block, in
whatever order the blocks have been allocated and freed.
-/

namespace Xv6.Umalloc

open Lib

variable {base limit x y : ℕ} {P : Program} {fl : List ℕ}

theorem exists_covers {size : ℕ → ℕ} {l : List ℕ} (h : total (covers x) size l ≠ 0) :
    ∃ a ∈ l, a ≤ x ∧ x < a + 16 * size a := by
  by_contra hnone
  push Not at hnone
  refine h (List.sum_eq_zero fun n hn => ?_)
  obtain ⟨a, ha, rfl⟩ := List.mem_map.mp hn
  exact if_neg fun hx => absurd (hnone a ha hx.1) (not_le.mpr hx.2)

theorem Represents.free_block (h : Represents base P fl) (hx : P.mem.total (covers x) ≠ 0)
    (hlive : ∀ b ∈ P.live, covers x b (P.mem.size b) = 0) :
    ∃ a ∈ fl, a ≤ x ∧ x < a + 16 * P.mem.size a := by
  apply exists_covers
  have hblocks := h.blocks x
  have hzero : total (covers x) P.mem.size P.live = 0 :=
    List.sum_eq_zero fun n hn => by
      obtain ⟨b, hb, rfl⟩ := List.mem_map.mp hn
      exact hlive b hb
  omega

/-- A free block goes on as far as the free memory does. -/
theorem Represents.joined (h : Represents base P fl)
    (hfree : ∀ z, x ≤ z → z ≤ y → P.mem.total (covers z) ≠ 0 ∧
      ∀ b ∈ P.live, covers z b (P.mem.size b) = 0) (hxy : x ≤ y) :
    ∃ a ∈ fl, a ≤ x ∧ y < a + 16 * P.mem.size a := by
  induction y, hxy using Nat.le_induction with
  | base =>
    obtain ⟨hx, hlive⟩ := hfree x le_rfl le_rfl
    exact h.free_block hx hlive
  | succ y hxy ih =>
    obtain ⟨a, ha, hax, hya⟩ := ih fun z hz hzy => hfree z hz (by omega)
    obtain ⟨hy, hlive⟩ := hfree (y + 1) (by omega) le_rfl
    obtain ⟨b, hb, hby, hyb⟩ := h.free_block hy hlive
    -- If the next byte were in a block before or behind, the two blocks would touch.
    obtain ⟨l, r, rfl⟩ := List.append_of_mem ha
    obtain ⟨-, hr, hl⟩ := List.pairwise_append.mp h.gap
    rcases List.mem_append.mp hb with hbl | hbr
    · have := hl b hbl a List.mem_cons_self
      omega
    · rcases List.mem_cons.mp hbr with rfl | hbr
      · exact ⟨b, ha, hax, hyb⟩
      · have := (List.pairwise_cons.mp hr).1 b hbr
        omega

/-- In every state that calls of `malloc` and `free` lead to, memory from `sbrk` without a gap and without
a block in use lies in one block of the free list. In particular everything is one block again when a
program has freed all it has allocated from one piece of memory. -/
theorem free_memory_joined {ptr size : ℕ → ℕ} {top : ℕ} (hbase : 0 < base) (htop : base + 16 ≤ top)
    (hlim : limit < 2 ^ 32)
    (h : Reach (Program.init ptr size top) (Step base limit) (fun _ _ => True) P) (hxy : x ≤ y)
    (hfree : ∀ z, x ≤ z → z ≤ y → P.mem.total (covers z) ≠ 0 ∧
      ∀ b ∈ P.live, covers z b (P.mem.size b) = 0) :
    ∃ fl, Represents base P fl ∧ ∃ a ∈ fl, a ≤ x ∧ y < a + 16 * P.mem.size a := by
  have hk : Keeps base limit P := h.invariant (P := Keeps base limit) (.inl ⟨rfl, rfl, rfl, htop⟩)
    fun _ _ _ hP _ hs => hP.step hbase hlim hs
  obtain hfresh | ⟨xs, hinv⟩ := hk
  · -- Before the first call there is no memory.
    refine absurd ?_ (hfree x le_rfl hxy).1
    simp [State.total, hfresh.pieces]
  · obtain ⟨fl, hfl⟩ := hinv.represents
    exact ⟨fl, hfl, hfl.joined hfree hxy⟩

/-- After `malloc(8)` and `free` the first piece of memory is one free block. -/
theorem free_memory_joined_first : ∃ P,
    Reach (Program.init (fun _ => 0) (fun _ => 0) 32) (Step 16 4096) (fun _ _ => True) P ∧
    ∃ fl, Represents 16 P fl ∧ ∃ a ∈ fl, a ≤ 32 ∧ 31 + 16 * 4096 < a + 16 * P.mem.size a := by
  have heval : (execute (next 16 4096) (fun _ _ => true) (Program.init (fun _ => 0) (fun _ => 0) 32)
      [.malloc 8 [some 32], .free (32 + 16 * 4094)]).map (fun P => (P.live, P.mem.pieces)) =
      some ([], [(32, 4096)]) := by
    decide +kernel
  obtain ⟨P, hrun, hP⟩ := Option.map_eq_some_iff.mp heval
  obtain ⟨hlive, hpieces⟩ := Prod.mk.inj hP
  have hreach : Reach (Program.init (fun _ => 0) (fun _ => 0) 32) (Step 16 4096) (fun _ _ => True) P :=
    Reach.execute step_of_next (fun _ _ _ => trivial) .init hrun
  refine ⟨P, hreach, free_memory_joined (by decide) (by decide) (by decide) hreach (by decide) ?_⟩
  intro z hz hzy
  simp only [State.total, hpieces, hlive, covers]
  exact ⟨by simp; omega, by simp⟩

end Xv6.Umalloc
