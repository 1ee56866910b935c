import BitKeeper.Lib.Assoc
import BitKeeper.Lib.Bytes

/-!
The three-way merge of sets of lines in `merge.c`, by a scratch database with a bit for each file.
`fnext` reads into a buffer of `MAXLINE` bytes, so a longer line is read in pieces.
-/

namespace BitKeeper.HashMerge

open List Assoc Bytes Prod

def MAXLINE : Nat := 2048

def newline : UInt8 := 10

def return_ : UInt8 := 13

def fgets : Nat → Bytes → Bytes × Bytes
  | 0, f => ([], f)
  | _ + 1, [] => ([], [])
  | n + 1, c :: f =>
    if c = newline then ([c], f)
    else ((c :: (fgets n f).1), (fgets n f).2)

def chomp (s : Bytes) : Bytes := s.rdropWhile fun c => c == newline || c == return_

/-- The loop `while (fnext(buf, f)) chomp(buf)`: every turn reads a byte at
least. -/
def readLines : Nat → Bytes → List Bytes
  | 0, _ => []
  | _ + 1, [] => []
  | fuel + 1, f => chomp (fgets (MAXLINE - 1) f).1 :: readLines fuel (fgets (MAXLINE - 1) f).2

def fileLines (f : Bytes) : List Bytes := readLines f.length f

abbrev Mdbm := List (Bytes × Nat)

/-- Set bit `i` of the line; a new line starts with the empty string, a zero. -/
def setBit (i : Nat) : Mdbm → Bytes → Mdbm
  | [], buf => [(buf, 0 ||| (1 <<< i))]
  | (key, p) :: db, buf => if key = buf then (key, p ||| (1 <<< i)) :: db else
      (key, p) :: setBit i db buf

def keepLine (val : Nat) : Bool :=
  let l := val.testBit 0
  let g := val.testBit 1
  let r := val.testBit 2
  if g then l && r else l || r

def printLines (lines : List Bytes) : Bytes := (lines.map fun line => line ++ [newline]).flatten

def do_setmerge (q : Sorter) (l g r : Bytes) : Bytes :=
  let db := (fileLines l).foldl (setBit 0) []
  let db := (fileLines g).foldl (setBit 1) db
  let db := (fileLines r).foldl (setBit 2) db
  printLines (q.sort ((db.filter fun kv => keepLine kv.2).map fst))

def bits (db : Mdbm) (x : Bytes) : Nat := (db.lookup x).getD 0

theorem bits_cons (key : Bytes) (p : Nat) (db : Mdbm) (x : Bytes) :
    bits ((key, p) :: db) x = if x = key then p else bits db x := by
  unfold bits
  rw [lookup_step,apply_ite (fun found => Option.getD found 0)]
  rfl

variable (i : Nat)

theorem setBit_eq (db : Mdbm) (buf : Bytes) :
    setBit i db buf = put db buf (bits db buf ||| (1 <<< i)) := by
  induction db with
  | nil => rfl
  | cons kv db ih =>
    obtain ⟨key,p⟩ := kv
    unfold setBit put
    rw [bits_cons]
    by_cases same : key = buf
    · rw [if_pos same,if_pos same,if_pos same.symm]
    · rw [if_neg same,if_neg same,if_neg (Ne.symm same),ih]

private theorem bits_setBit (db : Mdbm) (buf x : Bytes) :
    bits (setBit i db buf) x = if x = buf then bits db x ||| (1 <<< i) else bits db x := by
  rw [setBit_eq]
  conv_lhs => unfold bits
  rw [lookup_put]
  by_cases same : x = buf
  · rw [if_pos same,if_pos same,same]
    rfl
  · rw [if_neg same,if_neg same]
    rfl

variable {db : Mdbm}

theorem testBit_foldl (lines : List Bytes) (db : Mdbm) (x : Bytes) (j : Nat) :
    (bits (lines.foldl (setBit i) db) x).testBit j =
      ((bits db x).testBit j || (decide (i = j) && decide (x ∈ lines))) := by
  induction lines generalizing db with
  | nil => simp
  | cons line lines ih =>
    rw [foldl_cons,ih,bits_setBit]
    split
    next same =>
      rw [Nat.testBit_or,Nat.one_shiftLeft,Nat.testBit_two_pow]
      by_cases own : i = j
      · simp [same,own]
      · simp [own]
    next same =>
      simp [same]

theorem foldl_keys (lines : List Bytes) (nodup : (db.map fst).Nodup) :
    ((lines.foldl (setBit i) db).map fst).Nodup := by
  induction lines generalizing db with
  | nil => exact nodup
  | cons line lines ih => exact ih (setBit_eq i db line ▸ nodup_put nodup line _)

private theorem mem_kept (nodup : (db.map fst).Nodup) (x : Bytes) :
    x ∈ (db.filter fun kv => keepLine kv.2).map fst ↔ keepLine (bits db x) = true := by
  induction db with
  | nil => exact ⟨nofun, fun kept => absurd (show keepLine 0 = true from kept) (by decide)⟩
  | cons kv db ih =>
    obtain ⟨key,p⟩ := kv
    rw [map_cons,nodup_cons] at nodup
    rw [bits_cons]
    by_cases here : x = key
    · subst here
      have gone : x ∉ (db.filter fun kv => keepLine kv.2).map fst := fun inside =>
        nodup.1 ((filter_sublist.map fst).subset inside)
      rw [if_pos rfl,filter_cons]
      split
      next kept =>
        exact ⟨fun _ => kept, fun _ => mem_cons_self⟩
      next kept =>
        exact ⟨fun inside => absurd inside gone, fun holds => absurd holds kept⟩
    · rw [if_neg here,← ih nodup.2,filter_cons]
      by_cases kept : keepLine p = true
      · rw [if_pos kept,map_cons,mem_cons]
        exact ⟨fun inside => inside.resolve_left here, Or.inr⟩
      · rw [if_neg kept]

def Wanted (l g r : Prop) : Prop := (l ∧ r) ∨ ((l ∨ r) ∧ ¬ g)

theorem keepLine_iff (val : Nat) : keepLine val = true ↔
    Wanted (val.testBit 0 = true) (val.testBit 1 = true) (val.testBit 2 = true) := by
  unfold keepLine Wanted
  cases val.testBit 0 <;> cases val.testBit 1 <;> cases val.testBit 2 <;> simp

private theorem fgets_mem (n : Nat) (f : Bytes) :
    (∀ c ∈ (fgets n f).1, c ∈ f) ∧ (∀ c ∈ (fgets n f).2, c ∈ f) := by
  fun_induction fgets n f with
  | case1 | case2 => exact ⟨nofun,fun _ inside => inside⟩
  | case3 n f =>
    exact ⟨forall_mem_singleton.mpr mem_cons_self,fun x inside => mem_cons_of_mem _ inside⟩
  | case4 n c f ends ih =>
    exact ⟨forall_mem_cons.mpr ⟨mem_cons_self,fun x later => mem_cons_of_mem c (ih.1 x later)⟩,
      fun x inside => mem_cons_of_mem c (ih.2 x inside)⟩

theorem readLines_mem (fuel : Nat) (f : Bytes) : ∀ x ∈ readLines fuel f, ∀ c ∈ x, c ∈ f := by
  induction fuel generalizing f with
  | zero => exact nofun
  | succ fuel ih =>
    cases f with
    | nil => exact nofun
    | cons b f =>
      intro x inside c byte
      have pieces := fgets_mem (MAXLINE - 1) (b :: f)
      rcases mem_cons.mp inside with rfl | later
      · exact pieces.1 c (( rdropWhile_prefix _ _).subset byte)
      · exact pieces.2 c (ih _ x later c byte)

theorem do_setmerge_spec (q : Sorter) {l g r : Bytes} (cleanL : 0 ∉ l) (cleanR : 0 ∉ r) :
    ∃ lines, do_setmerge q l g r = printLines lines ∧ lines.Pairwise (· < ·) ∧
      ∀ x, x ∈ lines ↔ Wanted (x ∈ fileLines l) (x ∈ fileLines g) (x ∈ fileLines r) := by
  let db := (fileLines r).foldl (setBit 2)
    ((fileLines g).foldl (setBit 1) ((fileLines l).foldl (setBit 0) []))
  have nodup : (db.map fst).Nodup := foldl_keys 2 _ (foldl_keys 1 _ (foldl_keys 0 _ nodup_nil))
  have kept : ∀ x, x ∈ (db.filter fun kv => keepLine kv.2).map fst ↔
      Wanted (x ∈ fileLines l) (x ∈ fileLines g) (x ∈ fileLines r) := by
    intro x
    rw [mem_kept nodup,keepLine_iff,testBit_foldl,testBit_foldl,testBit_foldl,testBit_foldl,
      testBit_foldl,testBit_foldl,testBit_foldl,testBit_foldl,testBit_foldl]
    simp [bits]
  have clean : ∀ a ∈ (db.filter fun kv => keepLine kv.2).map fst, ∀ x ∈ a, x ≠ 0 := by
    intro a inside x byte zero
    subst zero
    have fromSide : a ∈ fileLines l ∨ a ∈ fileLines r := by
      rcases (kept a).mp inside with both | one
      · exact Or.inl both.1
      · exact one.1
    rcases fromSide with left | right
    · exact cleanL (readLines_mem _ l a left 0 byte)
    · exact cleanR (readLines_mem _ r a right 0 byte)
  have once : ((db.filter fun kv => keepLine kv.2).map fst).Nodup :=
    nodup.sublist (filter_sublist.map fst)
  refine ⟨q.sort ((db.filter fun kv => keepLine kv.2).map fst), rfl,q.strict clean once,?_⟩
  intro x
  rw [q.mem]
  exact kept x

theorem do_setmerge_comm (q : Sorter) {l g r : Bytes} (cleanL : 0 ∉ l) (cleanR : 0 ∉ r) :
    do_setmerge q l g r = do_setmerge q r g l := by
  obtain ⟨first,printedFirst,sortedFirst,memFirst⟩ := do_setmerge_spec q (g := g) cleanL cleanR
  obtain ⟨second,printedSecond,sortedSecond,memSecond⟩ := do_setmerge_spec q (g := g) cleanR cleanL
  have same : first = second := by
    refine eq_of_strict sortedFirst sortedSecond ?_
    intro x
    rw [memFirst,memSecond]
    unfold Wanted
    rw [and_comm,or_comm (a := x ∈ fileLines l)]
  rw [printedFirst,printedSecond,same]

def bare (line : Bytes) : Bytes := line.rdropWhile fun c => c == return_

theorem fgets_line {n : Nat} {line : Bytes} (plain : newline ∉ line) (short : line.length < n)
    (f : Bytes) :
    fgets n (line ++ newline :: f) = (line ++ [newline], f) := by
  induction line generalizing n with
  | nil =>
    cases n with
    | zero => exact absurd short (Nat.not_lt_zero _)
    | succ n => exact if_pos rfl
  | cons c line ih =>
    cases n with
    | zero => exact absurd short (Nat.not_lt_zero _)
    | succ n =>
      have other : c ≠ newline := fun same => plain (same ▸ mem_cons_self)
      have rest := ih (n := n) (fun inside => plain (mem_cons_of_mem c inside))
        (Nat.lt_of_succ_lt_succ short)
      rw [cons_append]
      unfold fgets
      rw [if_neg other,rest]
      rfl

private theorem chomp_line {line : Bytes} (plain : newline ∉ line) :
    chomp (line ++ [newline]) = bare line := by
  unfold chomp bare
  rw [rdropWhile_concat_pos _ _ _ (by decide)]
  induction line using List.reverseRecOn with
  | nil => rfl
  | append_singleton line c ih =>
    have other : c ≠ newline := fun same => plain (mem_append_right _ (mem_singleton.mpr same.symm))
    by_cases cr : c = return_
    · rw [rdropWhile_concat_pos _ _ _ (by simp [cr]),rdropWhile_concat_pos _ _ _ (by simp [cr])]
      exact ih fun inside => plain (mem_append_left _ inside)
    · rw [rdropWhile_concat_neg _ _ _ (by simp [cr,other]),
        rdropWhile_concat_neg _ _ _ (by simp [cr])]

theorem readLines_succ (fuel : Nat) {f : Bytes} (nonempty : f ≠ []) :
    readLines (fuel + 1) f =
      chomp (fgets (MAXLINE - 1) f).1 :: readLines fuel (fgets (MAXLINE - 1) f).2 := by
  cases f with
  | nil => exact absurd rfl nonempty
  | cons c f => rfl

theorem readLines_print {lines : List Bytes} (plain : ∀ line ∈ lines, newline ∉ line)
    (short : ∀ line ∈ lines, line.length < MAXLINE - 1) {fuel : Nat}
    (enough : (printLines lines).length ≤ fuel) :
    readLines fuel (printLines lines) = lines.map bare := by
  induction lines generalizing fuel with
  | nil =>
    cases fuel with
    | zero => rfl
    | succ fuel => rfl
  | cons line lines ih =>
    have shape : printLines (line :: lines) = line ++ newline :: printLines lines := by
      unfold printLines
      rw [map_cons,flatten_cons,append_assoc]
      rfl
    rw [shape,length_append,length_cons] at enough
    rw [shape]
    cases fuel with
    | zero => omega
    | succ fuel =>
      have nonempty : line ++ newline :: printLines lines ≠ [] := by simp
      have first :=
        fgets_line (plain line mem_cons_self) (short line mem_cons_self) (printLines lines)
      rw [readLines_succ fuel nonempty,first,chomp_line (plain line mem_cons_self),map_cons,
        ih (fun other inside => plain other (mem_cons_of_mem line inside))
          (fun other inside => short other (mem_cons_of_mem line inside)) (by omega)]

theorem fileLines_print {lines : List Bytes} (plain : ∀ line ∈ lines, newline ∉ line)
    (short : ∀ line ∈ lines, line.length < MAXLINE - 1) :
    fileLines (printLines lines) = lines.map bare :=
  readLines_print plain short le_rfl

end BitKeeper.HashMerge
