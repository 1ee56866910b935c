import BitKeeper.Serialmap.Model
import BitKeeper.Symdiff.Expand

/-!
Revisions as texts: a printed list of revisions is walked back to the deltas it was printed from.
-/

namespace BitKeeper.Serialmap

open List Bytes Symdiff

variable (n : Nat)

theorem atoi_p_decimal {rest : Bytes} (stops : ∀ c ∈ rest.head?, isDigit c = false) :
    atoi_p (decimal n ++ rest) = (n, rest) := by
  unfold atoi_p
  rw [readDecimal_decimal n stops]
  rfl

private theorem atoi_p_dot (rest : Bytes) : atoi_p (decimal n ++ dot :: rest) = (n, dot :: rest) :=
  atoi_p_decimal n fun c head => by
    cases head
    decide

theorem atoi_p_end : atoi_p (decimal n) = (n, []) := by
  have read : atoi_p (decimal n ++ []) = (n, []) := atoi_p_decimal n fun c head => by cases head
  rwa [append_nil] at read

def isRevByte (c : UInt8) : Bool := isDigit c || c == dot

theorem decimal_isRevByte : ∀ c ∈ decimal n, isRevByte c = true := fun c inside => by
  unfold isRevByte
  rw [decimal_digits n c inside,Bool.true_or]

theorem delta_rev_bytes (r : Rev) : ∀ c ∈ delta_rev r, isRevByte c = true := by
  have isDot : isRevByte dot = true := by decide
  unfold delta_rev
  split
  · simp only [forall_mem_append,forall_mem_cons]
    exact ⟨decimal_isRevByte _,isDot,decimal_isRevByte _,isDot,decimal_isRevByte _,isDot,
      decimal_isRevByte _⟩
  · simp only [forall_mem_append,forall_mem_cons]
    exact ⟨decimal_isRevByte _,isDot,decimal_isRevByte _⟩

theorem delta_rev_not_mem (r : Rev) {c : UInt8} (other : isRevByte c = false) : c ∉ delta_rev r :=
  fun inside =>
  Bool.false_ne_true (other.symm.trans (delta_rev_bytes r c inside))

theorem scanrev_delta_rev {r : Rev} (trunk : r.r2 = 0 → r.r3 = 0) : scanrev (delta_rev r) = r := by
  have formed : (delta_rev r).all (fun c => isDigit c || c == dot) = true :=
    all_eq_true.mpr (delta_rev_bytes r)
  unfold scanrev
  rw [formed,if_neg Bool.true_eq_false_eq_False]
  unfold delta_rev
  by_cases branch : r.r2 ≠ 0
  · rw [if_pos branch]
    simp only [atoi_p_dot,atoi_p_end,head?_cons,tail_cons,ne_eq,not_true_eq_false,if_false]
  have second : r.r2 = 0 := not_not.mp branch
  rw [if_neg branch]
  simp only [atoi_p_dot,atoi_p_end,head?_cons,head?_nil,tail_cons,ne_eq,not_true_eq_false,if_false,
    reduceCtorEq,not_false_eq_true,if_true]
  obtain ⟨a,b,c,d⟩ := r
  cases show c = 0 from second
  cases show d = 0 from trunk rfl
  rfl

private theorem delta_rev_head (r : Rev) : (delta_rev r).head?.any isDigit = true := by
  have starts : ∃ rest, delta_rev r = decimal r.r0 ++ rest := by
    unfold delta_rev
    split
    · exact ⟨_,rfl⟩
    · exact ⟨_,rfl⟩
  obtain ⟨rest,eq⟩ := starts
  rw [eq]
  cases digits : decimal r.r0 with
  | nil => exact absurd digits (decimal_ne_nil _)
  | cons c more =>
    have digit := decimal_digits r.r0 c (digits ▸ mem_cons_self)
    exact digit

private theorem rfind_delta_rev (s : File) {d : Nat} (real : RealSerial s.graph d) :
    rfind s (delta_rev (s.rev d)) = d := by
  obtain ⟨nonzero,within,plain⟩ := real
  have listed : d ∈ s.graph.serials := (s.graph.mem_serials d).mpr ⟨nonzero,within⟩
  have hit : (!s.graph.tag d && s.rev d == scanrev (delta_rev (s.rev d))) = true := by
    rw [scanrev_delta_rev (s.rev_trunk d),plain,beq_self_eq_true]
    rfl
  unfold rfind
  rw [if_pos (delta_rev_head _)]
  cases found : s.graph.serials.reverse.find? fun e =>
    !s.graph.tag e && s.rev e == scanrev (delta_rev (s.rev d)) with
  | none => exact absurd hit (find?_eq_none.mp found d (mem_reverse.mpr listed))
  | some e =>
    have same := find?_some found
    rw [Bool.and_eq_true,Bool.not_eq_true',beq_iff_eq,scanrev_delta_rev (s.rev_trunk d)] at same
    exact s.rev_inj e (mem_reverse.mp (mem_of_find?_eq_some found)) d listed same.1 plain same.2

theorem walkList_printed (s : File) {list : List Nat} (real : ∀ d ∈ list, RealSerial s.graph d) :
    walkList s (list.map fun d => delta_rev (s.rev d)) = (list, 0) := by
  induction list with
  | nil => rfl
  | cons d rest ih =>
    obtain ⟨first,later⟩ := forall_mem_cons.mp real
    have single : oneRev s (delta_rev (s.rev d)) = d := by
      have unlike : delta_rev (s.rev d) ≠ [plus] := fun same =>
        delta_rev_not_mem (s.rev d) (show isRevByte plus = false by decide) (same ▸ mem_cons_self)
      unfold oneRev
      rw [if_neg unlike,rfind_delta_rev s first]
    rw [map_cons]
    unfold walkList
    rw [if_neg (delta_rev_not_mem (s.rev d) (by decide)),single,if_neg first.1,ih later]

theorem revs_printRevs (s : File) {list : List Nat} (real : ∀ d ∈ list, RealSerial s.graph d) :
    revs s (printRevs s list) = (list.reverse, 0) := by
  unfold printRevs
  split
  next empty =>
    rw [empty]
    rfl
  rename_i empty
  unfold revs
  dsimp only
  rw [splitOn_intercalate]
  · exact walkList_printed s fun d inside => real d (mem_reverse.mp inside)
  · intro text inside
    obtain ⟨d,_listed,rfl⟩ := mem_map.mp inside
    exact delta_rev_not_mem (s.rev d) (by decide)
  · intro none
    exact empty (reverse_eq_nil_iff.mp (map_eq_nil_iff.mp none))

end BitKeeper.Serialmap
