import Mathlib.Data.List.DropRight
import Mathlib.Data.List.GetD
import SolidityAst.Source.Position
import SolidityAst.Proofs.Text.Utf8Reading

/-!
The position of an offset is what a plain scan up to it counts.

The line index looks an offset up in a table of line starts.  The starts up to an offset are as many as
the line feeds before it and one more, and the last of them is where the bytes after the last line feed
begin; so the search finds the line that a scan finds, and the column counts the same bytes.
-/
namespace SolidityAst.Source

open Text

/-! ## Binary search -/

-- The invariant of the search: the predicate fails below `lo` and holds from `hi` on.
theorem searchFirst_spec {p : Nat → Bool} {n : Nat}
    (hp : ∀ i j, i ≤ j → j < n → p i = true → p j = true) {lo hi : Nat} (hlo : lo ≤ hi) (hhi : hi ≤ n)
    (hbelow : ∀ i, i < lo → p i = false) (habove : ∀ i, hi ≤ i → i < n → p i = true) :
    searchFirst p lo hi ≤ n ∧ (∀ i, i < searchFirst p lo hi → p i = false) ∧
      ∀ i, searchFirst p lo hi ≤ i → i < n → p i = true := by
  fun_induction searchFirst p lo hi with
  | case1 lo hi hlt mid hmid ih =>
    apply ih (by omega) (by omega) hbelow
    intro i hi hin
    exact hp mid i hi hin hmid
  | case2 lo hi hlt mid hmid ih =>
    apply ih (by omega) hhi _ habove
    intro i hi
    by_contra htrue
    exact hmid (hp i mid (by omega) (by omega) (Bool.not_eq_false _ ▸ htrue))
  | case3 lo hi hle =>
    have heq : lo = hi := by omega
    subst heq
    exact ⟨hhi, hbelow, habove⟩

/-! ## The table of line starts -/

theorem lt_of_mem_startsAfter {k x : Nat} {bs : Bytes} (h : x ∈ startsAfter k bs) : k < x := by
  induction bs generalizing k with
  | nil => cases h
  | cons b bs ih =>
    rw [startsAfter] at h
    split at h
    next =>
      rcases List.mem_cons.mp h with rfl | h
      · omega
      · have := ih h
        omega
    next =>
      have := ih h
      omega

theorem pairwise_startsAfter (k : Nat) (bs : Bytes) : (startsAfter k bs).Pairwise (· < ·) := by
  induction bs generalizing k with
  | nil => exact .nil
  | cons b bs ih =>
    rw [startsAfter]
    split
    next => exact List.pairwise_cons.mpr ⟨fun x hx => lt_of_mem_startsAfter hx, ih (k + 1)⟩
    next => exact ih (k + 1)

theorem startsAfter_append (k : Nat) (as bs : Bytes) :
    startsAfter k (as ++ bs) = startsAfter k as ++ startsAfter (k + as.length) bs := by
  induction as generalizing k with
  | nil => rfl
  | cons a as ih =>
    have hlength : k + 1 + as.length = k + (a :: as).length := by
      rw [List.length_cons]
      omega
    rw [List.cons_append, startsAfter, startsAfter, ih, hlength]
    split <;> rfl

theorem length_startsAfter (k : Nat) (bs : Bytes) : (startsAfter k bs).length = bs.count 0x0A := by
  induction bs generalizing k with
  | nil => rfl
  | cons b bs ih =>
    rw [startsAfter, List.count_cons]
    by_cases hb : b = 0x0A
    · simp [hb, ih]
    · simp [hb, ih]

-- As many starts lie at most `o` bytes on as there are line feeds in those bytes.
theorem countP_startsAfter (k o : Nat) (bs : Bytes) :
    (startsAfter k bs).countP (· ≤ k + o) = (bs.take o).count 0x0A := by
  induction bs generalizing k o with
  | nil => rw [List.take_nil]; rfl
  | cons b bs ih =>
    cases o with
    | zero =>
      rw [List.take_zero, List.count_nil, List.countP_eq_zero]
      intro x hx
      have := lt_of_mem_startsAfter hx
      simp only [decide_eq_true_eq]
      omega
    | succ o =>
      have hshift : k + (o + 1) = k + 1 + o := by omega
      rw [startsAfter, List.take_succ_cons, List.count_cons, hshift]
      by_cases hb : b = 0x0A
      · simp [hb, ih]
      · simp [hb, ih]

theorem countP_of_cut {starts : List Nat} {o r : Nat} (hr : r ≤ starts.length)
    (hbelow : ∀ i, i < r → starts.getD i 0 ≤ o)
    (habove : ∀ i, r ≤ i → i < starts.length → o < starts.getD i 0) :
    starts.countP (· ≤ o) = r := by
  -- Taking an entry off the table moves the cut by one, until it is at the front.
  induction starts generalizing r with
  | nil =>
    have : r ≤ 0 := hr
    rw [List.countP_nil]
    omega
  | cons s starts ih =>
    cases r with
    | zero =>
      have hs : o < s := habove 0 (by omega) (by simp)
      have hrest : starts.countP (· ≤ o) = 0 :=
        ih (by omega) (by omega) fun i _ hi => habove (i + 1) (by omega) (by simp; omega)
      rw [List.countP_cons_of_neg (by simp; omega), hrest]
    | succ r =>
      have hs : s ≤ o := hbelow 0 (by omega)
      have hrest : starts.countP (· ≤ o) = r :=
        ih (by simpa using hr) (fun i hi => hbelow (i + 1) (by omega)) fun i hri hi =>
          habove (i + 1) (by omega) (by simp; omega)
      rw [List.countP_cons_of_pos (by simpa using hs), hrest]

/-! ## The line of an offset -/

/-- The bytes after the last line feed. -/
def lastLine (bs : Bytes) : Bytes := bs.rtakeWhile (· != 0x0A)

theorem notMem_lastLine (bs : Bytes) : (0x0A : UInt8) ∉ lastLine bs := by
  intro hmem
  have := List.mem_rtakeWhile_imp hmem
  simp at this

/-- A byte string is whole lines, each with its line feed, and then its last line. -/
theorem exists_lastLine (bs : Bytes) :
    ∃ whole, bs = whole ++ lastLine bs ∧ bs.count 0x0A = whole.count 0x0A ∧
      (whole = [] ∨ ∃ lines, whole = lines ++ [0x0A]) := by
  have hcut : bs = bs.rdropWhile (· != 0x0A) ++ lastLine bs := List.rdropWhile_append_rtakeWhile.symm
  refine ⟨bs.rdropWhile (· != 0x0A), hcut, ?_, ?_⟩
  · nth_rewrite 1 [hcut]
    rw [List.count_append, List.count_eq_zero.mpr (notMem_lastLine bs), Nat.add_zero]
  · by_cases hnil : bs.rdropWhile (· != 0x0A) = []
    · exact .inl hnil
    · right
      have hlast := List.rdropWhile_last_not _ _ hnil
      simp only [bne_iff_ne, ne_eq, Decidable.not_not] at hlast
      have hend := (List.dropLast_append_getLast hnil).symm
      rw [hlast] at hend
      exact ⟨_, hend⟩

-- The table has one entry for each whole line before the offset, and then the start of the last one.
theorem getD_starts {whole : Bytes} (hwhole : whole = [] ∨ ∃ lines, whole = lines ++ [0x0A])
    (rest : Bytes) :
    (0 :: startsAfter 0 (whole ++ rest)).getD (whole.count 0x0A) 0 = whole.length := by
  rcases hwhole with rfl | ⟨lines, rfl⟩
  · rfl
  · have hcount : (lines ++ [(0x0A : UInt8)]).count 0x0A = (startsAfter 0 lines).length + 1 := by
      rw [length_startsAfter, List.count_append]
      rfl
    have hlast : startsAfter (0 + lines.length) [0x0A] = [lines.length + 1] := by
      rw [Nat.zero_add]
      rfl
    rw [hcount, List.getD_cons_succ, startsAfter_append, startsAfter_append, hlast, List.append_assoc,
      List.getD_append_right _ _ _ _ (Nat.le_refl _), Nat.sub_self, List.length_append]
    rfl

namespace LineIndex

theorem ofSource_starts_getD (source : Bytes) (i : Nat) :
    (ofSource source).starts.getD i 0 = (0 :: startsAfter 0 source).getD i 0 := by
  rw [ofSource, Array.getD_eq_getD_getElem?, List.getElem?_toArray, List.getD_eq_getElem?_getD]

theorem ofSource_starts_size (source : Bytes) :
    (ofSource source).starts.size = (0 :: startsAfter 0 source).length := by
  rw [ofSource, List.size_toArray]

theorem starts_lt {source : Bytes} {i j : Nat} (hij : i < j)
    (hj : j < (0 :: startsAfter 0 source).length) :
    (0 :: startsAfter 0 source).getD i 0 < (0 :: startsAfter 0 source).getD j 0 := by
  have hpairwise : (0 :: startsAfter 0 source).Pairwise (· < ·) :=
    List.pairwise_cons.mpr ⟨fun _ => lt_of_mem_startsAfter, pairwise_startsAfter 0 source⟩
  rw [List.getD_eq_getElem _ _ (by omega), List.getD_eq_getElem _ _ hj]
  exact List.pairwise_iff_getElem.mp hpairwise i j (by omega) hj hij

/-- The search stops one past the line that the line feeds before the offset count. -/
theorem searchFirst_starts (source : Bytes) (o : Nat) :
    searchFirst (fun i => o < (ofSource source).starts.getD i 0) 0 (ofSource source).starts.size =
      (source.take o).count 0x0A + 1 := by
  rw [ofSource_starts_size]
  simp only [ofSource_starts_getD]
  have hsorted : ∀ i j, i ≤ j → j < (0 :: startsAfter 0 source).length →
      decide (o < (0 :: startsAfter 0 source).getD i 0) = true →
      decide (o < (0 :: startsAfter 0 source).getD j 0) = true := by
    intro i j hij hj hi
    simp only [decide_eq_true_eq] at hi ⊢
    rcases Nat.eq_or_lt_of_le hij with rfl | hlt
    · exact hi
    · exact Nat.lt_trans hi (starts_lt hlt hj)
  obtain ⟨hle, hbelow, habove⟩ :=
    searchFirst_spec hsorted (Nat.zero_le _) (Nat.le_refl _) (by omega) (by omega)
  have hcut := countP_of_cut hle (fun i hi => by simpa using hbelow i hi)
    fun i hri hi => by simpa using habove i hri hi
  rw [← hcut, List.countP_cons_of_pos (by simp), ← Nat.zero_add o, countP_startsAfter]
  rw [Nat.zero_add]

theorem lineOf_eq (source : Bytes) (o : Nat) :
    (ofSource source).lineOf o = (source.take o).count 0x0A := by
  rw [lineOf, searchFirst_starts, Nat.add_sub_cancel]

-- The start found for an offset leaves the last line before it, and nothing of the lines above.
theorem lineStart_eq {source : Bytes} {o : Nat} (ho : o ≤ source.length) :
    (ofSource source).starts.getD ((source.take o).count 0x0A) 0 + (lastLine (source.take o)).length = o ∧
      (source.drop ((ofSource source).starts.getD ((source.take o).count 0x0A) 0)).take
          (o - (ofSource source).starts.getD ((source.take o).count 0x0A) 0) =
        lastLine (source.take o) := by
  obtain ⟨whole, hcut, hcount, hwhole⟩ := exists_lastLine (source.take o)
  have hstart : (ofSource source).starts.getD ((source.take o).count 0x0A) 0 = whole.length := by
    have hsource : source = whole ++ (lastLine (source.take o) ++ source.drop o) := by
      rw [← List.append_assoc, ← hcut, List.take_append_drop]
    rw [hcount, ofSource_starts_getD, hsource]
    exact getD_starts hwhole _
  rw [hstart]
  constructor
  · rw [← List.length_append, ← hcut, List.length_take]
    omega
  · rw [← List.drop_take]
    nth_rewrite 1 [hcut]
    exact List.drop_left

/-- The position of an offset inside the source, by counting. -/
theorem position_eq {source : Bytes} {o : Nat} (ho : o ≤ source.length) :
    (ofSource source).position o =
      ⟨1 + (source.take o).count 0x0A, (Utf8.decode (lastLine (source.take o))).length⟩ := by
  have hclamp : min (o : Int).toNat (ofSource source).source.length = o := by
    rw [Int.toNat_natCast]
    exact Nat.min_eq_left ho
  unfold position
  dsimp only
  rw [hclamp, lineOf_eq, Nat.add_comm]
  congr 2
  exact congrArg Utf8.decode (lineStart_eq ho).2

theorem position_clamp (source : Bytes) (offset : Int) :
    (ofSource source).position offset =
      (ofSource source).position (max 0 (min offset source.length)).toNat := by
  have hclamp : min offset.toNat source.length =
      min ((max 0 (min offset source.length)).toNat : Int).toNat source.length := by omega
  unfold position
  dsimp only
  rw [show (ofSource source).source = source from rfl, hclamp]

/-- Looking an offset up counts what a scan of the bytes before it counts. -/
theorem position_counts (source : Bytes) (offset : Int) :
    let index := ofSource source
    let o := (max 0 (min offset source.length)).toNat
    let before := source.take o
    (index.position offset).line = 1 + before.count 0x0A ∧
      (∃ runes, (∀ rs, Utf8.Reads (lastLine before) rs ↔ rs = runes) ∧
        (index.position offset).column = runes.length) ∧
      ∃ i, searchFirst (fun i => o < index.starts.getD i 0) 0 index.starts.size = i + 1 ∧
        i < index.starts.size ∧ index.lineOf o = i ∧
        index.starts.getD i 0 + (lastLine before).length = o := by
  intro index o before
  have ho : o ≤ source.length := by omega
  have hposition : index.position offset = _ := (position_clamp source offset).trans (position_eq ho)
  rw [hposition]
  refine ⟨rfl, ⟨Utf8.decode (lastLine before), fun rs => ?_, rfl⟩, before.count 0x0A, ?_⟩
  · rw [Utf8.reads_iff]
    exact eq_comm
  · refine ⟨searchFirst_starts source o, ?_, lineOf_eq source o, (lineStart_eq ho).1⟩
    have hle : before.count 0x0A ≤ source.count 0x0A := (List.take_sublist o source).count_le _
    rw [ofSource_starts_size, List.length_cons, length_startsAfter]
    omega

end LineIndex

end SolidityAst.Source
