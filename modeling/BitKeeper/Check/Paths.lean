import BitKeeper.Lib.Bytes

/-!
The path conflicts that `bk check` looks for among neighbours of the sorted tip paths. A byte
smaller than the slash may stand between a file and a directory of the same name.
-/

namespace BitKeeper.Check

open Bytes List

def slash : UInt8 := 47

/-- A file at the tip: path, root key, whether it is a component, whether it is gone, whether its
s.file is found. -/
structure Tipdata where
  path : Bytes
  rkey : Bytes
  component : Bool
  gone : Bool
  present : Bool
  incommit : Bool
deriving DecidableEq

def tipdata_sort (a b : Tipdata) : Int :=
  let len := min a.path.length b.path.length
  let rc := strncmp len a.path b.path
  if rc ≠ 0 then rc
  else
    let rc := (a.path.length : Int) - b.path.length
    if rc ≠ 0 then rc else strcmp a.rkey b.rkey

/-- The first place where the paths differ, zero if a name does not end there in both; `n` bytes are
passed. -/
def overlapFrom : Nat → Bytes → Bytes → Nat
  | n, x :: a, y :: b =>
    if x = y then overlapFrom (n + 1) a b else if x = slash ∧ y = slash then n else 0
  | n, [], y :: _ => if y = slash then n else 0
  | n, x :: _, [] => if x = slash then n else 0
  | n, [], [] => n

def paths_overlap (abase bbase : Bytes) : Nat := overlapFrom 0 abase bbase

/-- The decision of `pathConflictError`; the file being committed goes first. -/
def pathConflictError (a b : Tipdata) :
    Bool := let first := if !a.incommit && b.incommit then b else a
  let second := if !a.incommit && b.incommit then a else b
  if first.component && second.component && decide (first.path ≠ second.path) then false
  else if first.gone && !first.present then false
  else if second.gone && !second.present then false
  else true

def neighbours : List Tipdata → Bool
  | a :: b :: rest =>
    if paths_overlap a.path b.path ≠ 0 ∧ pathConflictError a b = true then true
    else neighbours (b :: rest)
  | _ => false

structure CleanTip (td : Tipdata) : Prop where
  path : ∀ x ∈ td.path, x ≠ 0
  rkey : ∀ x ∈ td.rkey, x ≠ 0

structure SortPaths where
  sort : List Tipdata → List Tipdata
  perm : ∀ list, (sort list).Perm list
  sorted : ∀ list, (∀ td ∈ list, CleanTip td) → (sort list).Pairwise fun a b => tipdata_sort a b ≤ 0

def pathConflicts (q : SortPaths) (pathnames : List Tipdata) : Bool := neighbours (q.sort pathnames)

variable {a b : Tipdata}

private theorem tipdata_sort_le (clean : ∀ x ∈ a.path, x ≠ 0) (order : tipdata_sort a b ≤ 0) :
    a.path ≤ b.path := by
  have compared := strncmp_order (b := b.path) clean rfl
  unfold tipdata_sort at order
  dsimp only at order
  split at order
  · exact List.le_of_lt (compared.1 (by omega))
  rename_i differ
  have common := compared.2 (not_not.mp differ)
  -- the shorter path is the beginning of the longer one
  have short : a.path.length ≤ b.path.length := by
    by_cases longer : (a.path.length : Int) - b.path.length ≠ 0
    · rw [if_pos longer] at order
      omega
    · omega
  rw [Nat.min_eq_left short,take_length] at common
  have split := take_append_drop a.path.length b.path
  rw [← common] at split
  rw [← split]
  exact le_append a.path _

def Overlaps (p q : Bytes) : Prop := p = q ∨ (∃ t, q = p ++ slash :: t) ∨ (∃ t, p = q ++ slash :: t)

theorem overlaps_cons {x y : UInt8} {a b : Bytes} :
    Overlaps (x :: a) (y :: b) ↔ x = y ∧ Overlaps a b := by
  constructor
  · rintro (same | ⟨t,below⟩ | ⟨t,below⟩)
    · obtain ⟨rfl,rfl⟩ := cons.inj same
      exact ⟨rfl,.inl rfl⟩
    · obtain ⟨rfl,rfl⟩ := cons.inj below
      exact ⟨rfl,.inr (.inl ⟨t,rfl⟩)⟩
    · obtain ⟨rfl,rfl⟩ := cons.inj below
      exact ⟨rfl,.inr (.inr ⟨t,rfl⟩)⟩
  · rintro ⟨rfl,rfl | ⟨t,rfl⟩ | ⟨t,rfl⟩⟩
    · exact .inl rfl
    · exact .inr (.inl ⟨t,rfl⟩)
    · exact .inr (.inr ⟨t,rfl⟩)

theorem overlapFrom_ne_zero {n : Nat} (passed : n ≠ 0) {a b : Bytes} :
    overlapFrom n a b ≠ 0 ↔ Overlaps a b := by
  fun_induction overlapFrom n a b with
  | case1 n a y b ih =>
    rw [ih (Nat.succ_ne_zero n),overlaps_cons]
    exact ⟨fun overlap => ⟨rfl,overlap⟩, fun both => both.2⟩
  | case2 _ _ _ _ _ differ both => exact absurd (both.1.trans both.2.symm) differ
  | case3 _ _ _ _ _ differ =>
    rw [overlaps_cons]
    exact iff_of_false (fun zero => zero rfl) fun both => differ both.1
  | case4 => exact iff_of_true passed (.inr (.inl ⟨_,rfl⟩))
  | case5 _ y b ends =>
    refine iff_of_false (fun zero => zero rfl) ?_
    rintro (same | ⟨t,below⟩ | ⟨t,below⟩)
    · cases same
    · exact ends (cons.inj below).1
    · cases below
  | case6 => exact iff_of_true passed (.inr (.inr ⟨_,rfl⟩))
  | case7 _ x a ends =>
    refine iff_of_false (fun zero => zero rfl) ?_
    rintro (same | ⟨t,below⟩ | ⟨t,below⟩)
    · cases same
    · cases below
    · exact ends (cons.inj below).1
  | case8 => exact iff_of_true passed (.inl rfl)

theorem paths_overlap_ne_zero {p q : Bytes} (nonemptyP : p ≠ []) (nonemptyQ : q ≠ []) :
    paths_overlap p q ≠ 0 ↔ Overlaps p q := by
  cases p with
  | nil => exact absurd rfl nonemptyP
  | cons x a =>
    cases q with
    | nil => exact absurd rfl nonemptyQ
    | cons y b =>
      unfold paths_overlap overlapFrom
      rw [overlaps_cons]
      split
      next same =>
        rw [overlapFrom_ne_zero (Nat.succ_ne_zero 0)]
        exact ⟨fun overlap => ⟨same,overlap⟩, fun both => both.2⟩
      next same =>
        rw [if_neg (fun both => same (both.1.trans both.2.symm))]
        exact ⟨(absurd rfl ·), fun both => absurd both.1 same⟩

structure Ordinary (td : Tipdata) : Prop where
  nonempty : td.path ≠ []
  clean : CleanTip td
  file : td.component = false
  kept : td.gone = false

theorem ordinary_conflict (first : Ordinary a) (second : Ordinary b) :
    pathConflictError a b = true := by
  unfold pathConflictError
  by_cases swapped : (!a.incommit && b.incommit) = true
  · simp [swapped,first.file,first.kept,second.kept]
  · simp [swapped,first.file,first.kept,second.kept]

variable {list : List Tipdata}

private theorem neighbours_iff (ordinary : ∀ td ∈ list, Ordinary td) :
    neighbours list = true ↔
      ∃ before a b after, list = before ++ a :: b :: after ∧ Overlaps a.path b.path := by
  induction list with
  | nil =>
    refine ⟨fun found => absurd found Bool.false_ne_true, ?_⟩
    rintro ⟨before,a,b,after,split,_⟩
    exact absurd split (by simp)
  | cons a rest ih =>
    cases rest with
    | nil =>
      refine ⟨fun found => absurd found Bool.false_ne_true, ?_⟩
      rintro ⟨before,x,y,after,split,_⟩
      have long := congrArg length split
      simp only [length_append,length_cons,length_nil] at long
      omega
    | cons b rest =>
      have first := ordinary a mem_cons_self
      have second := ordinary b (mem_cons_of_mem a mem_cons_self)
      have overlap := paths_overlap_ne_zero first.nonempty second.nonempty
      have tail := ih fun td inside => ordinary td (mem_cons_of_mem a inside)
      unfold neighbours
      by_cases here : Overlaps a.path b.path
      · rw [if_pos ⟨overlap.mpr here,ordinary_conflict first second⟩]
        exact ⟨fun _ => ⟨[],a,b,rest,rfl,here⟩, fun _ => rfl⟩
      rw [if_neg (fun both => here (overlap.mp both.1)), tail]
      constructor
      · rintro ⟨before,x,y,after,split,overlaps⟩
        exact ⟨a :: before,x,y,after,by rw [split]; rfl,overlaps⟩
      rintro ⟨before,x,y,after,split,overlaps⟩
      cases before with
      | nil =>
        obtain ⟨rfl,later⟩ := cons.inj split
        obtain ⟨rfl,_⟩ := cons.inj later
        exact absurd overlaps here
      | cons z before => exact ⟨before,x,y,after,(cons.inj split).2,overlaps⟩

/-- A file whose next path, if anything is below it, is below it: none goes on by a byte smaller
than the slash. -/
def Unshadowed (pathnames : List Tipdata) (p : Bytes) : Prop :=
  ∀ td ∈ pathnames, ∀ c u, td.path = p ++ c :: u → ¬ c < slash

/-- Two files share a path, or one is below the other and no path comes between them. -/
def Adjoining (pathnames : List Tipdata) : Prop :=
  ∃ a ∈ pathnames, ∃ b ∈ pathnames, a.rkey ≠ b.rkey ∧ (a.path = b.path ∨
    ((∃ t, b.path = a.path ++ slash :: t) ∧ Unshadowed pathnames a.path))

def Conflicting (pathnames : List Tipdata) : Prop :=
  ∃ a ∈ pathnames, ∃ b ∈ pathnames, a.rkey ≠ b.rkey ∧ Overlaps a.path b.path

theorem neighbours_adjoin {before after : List Tipdata}
    (sorted : (before ++ a :: b :: after).Pairwise fun x y => x.path ≤ y.path)
    (distinct : (before ++ a :: b :: after).Pairwise fun x y => x.rkey ≠ y.rkey)
    (overlap : Overlaps a.path b.path) : Adjoining (before ++ a :: b :: after) := by
  have insideA : a ∈ before ++ a :: b :: after := mem_append_right _ mem_cons_self
  have insideB : b ∈ before ++ a :: b :: after :=
    mem_append_right _ (mem_cons_of_mem a mem_cons_self)
  obtain ⟨_,sortedTail,earlier⟩ := pairwise_append.mp sorted
  obtain ⟨laterA,sortedRest⟩ := pairwise_cons.mp sortedTail
  obtain ⟨laterB,_⟩ := pairwise_cons.mp sortedRest
  have order := laterA b mem_cons_self
  obtain ⟨_,distinctTail,_⟩ := pairwise_append.mp distinct
  have other := (pairwise_cons.mp distinctTail).1 b mem_cons_self
  refine ⟨a,insideA,b,insideB,other,?_⟩
  rcases overlap with same | ⟨t,below⟩ | ⟨t,below⟩
  · exact .inl same
  · refine .inr ⟨⟨t,below⟩,?_⟩
    intro td inside c u path small
    -- such a path would stand strictly between the neighbours
    have above : a.path < td.path := path ▸ lt_append a.path c u
    have under : td.path < b.path := by
      rw [path,below]
      exact lt_append_cons small a.path u t
    rcases List.mem_append.mp inside with early | late
    · exact List.not_le.mpr above (earlier td early a List.mem_cons_self)
    · rcases List.mem_cons.mp late with rfl | late
      · exact List.lt_irrefl _ above
      · rcases List.mem_cons.mp late with rfl | late
        · exact List.lt_irrefl _ under
        · exact List.not_le.mpr under (laterB td late)
  · refine absurd order (List.not_le.mpr ?_)
    rw [below]
    exact lt_append b.path slash t

private theorem next_overlaps {p : Bytes} {next : Tipdata} {t : Bytes} (low : p ≤ next.path)
    (high : next.path ≤ b.path) (below : b.path = p ++ slash :: t) (unshadowed : Unshadowed list p)
    (inside : next ∈ list) : Overlaps p next.path := by
  rw [below] at high
  obtain ⟨u,path,order⟩ := between_continues low high
  cases u with
  | nil =>
    rw [append_nil] at path
    exact .inl path.symm
  | cons c u =>
    have large := unshadowed next inside c u path
    rcases cons_le_cons_iff.mp order with small | ⟨same,_⟩
    · exact absurd small large
    · exact .inr (.inl ⟨u,same ▸ path⟩)

theorem adjoin_neighbours (sorted : list.Pairwise fun x y => x.path ≤ y.path)
    (adjoining : Adjoining list) :
    ∃ before a b after, list = before ++ a :: b :: after ∧ Overlaps a.path b.path := by
  -- from a file and a later one that bounds the paths between
  have found : ∀ a b, (∃ before after, list = before ++ a :: after ∧ b ∈ after) →
      (∀ next ∈ list, a.path ≤ next.path → next.path ≤ b.path → Overlaps a.path next.path) →
      ∃ before a b after, list = before ++ a :: b :: after ∧ Overlaps a.path b.path := by
    intro a b place bounded
    obtain ⟨before,after,split,later⟩ := place
    cases after with
    | nil => cases later
    | cons next after =>
      rw [split] at sorted
      obtain ⟨_,sortedTail,_⟩ := pairwise_append.mp sorted
      obtain ⟨laterA,sortedRest⟩ := pairwise_cons.mp sortedTail
      obtain ⟨laterNext,_⟩ := pairwise_cons.mp sortedRest
      have inside : next ∈ list := by
        rw [split]
        exact List.mem_append_right _ (List.mem_cons_of_mem a List.mem_cons_self)
      have high : next.path ≤ b.path := by
        rcases List.mem_cons.mp later with rfl | further
        · exact List.le_refl _
        · exact laterNext b further
      exact ⟨before,a,next,after,split,bounded next inside (laterA next List.mem_cons_self) high⟩
  obtain ⟨a,insideA,b,insideB,other,related⟩ := adjoining
  obtain ⟨before,after,split⟩ := append_of_mem insideA
  have place := insideB
  rw [split] at place
  rcases related with same | ⟨⟨t,below⟩,unshadowed⟩
  · have between : ∀ p : Bytes, p = a.path → ∀ next ∈ list, p ≤ next.path → next.path ≤ p →
        Overlaps p next.path := fun p _ next _ low high => .inl (List.le_antisymm low high)
    rcases List.mem_append.mp place with early | late
    · obtain ⟨first,second,splitB⟩ := List.append_of_mem early
      refine found b a ⟨first,second ++ a :: after,?_,?_⟩ ?_
      · rw [split,splitB,append_assoc]
        rfl
      · exact mem_append_right _ mem_cons_self
      · intro next inside low high
        exact between b.path same.symm next inside low (same ▸ high)
    · rcases mem_cons.mp late with rfl | late
      · exact absurd rfl other
      · refine found a b ⟨before,after,split,late⟩ ?_
        intro next inside low high
        exact between a.path rfl next inside low (same ▸ high)
  · rcases mem_append.mp place with early | late
    · rw [split] at sorted
      have order := (List.pairwise_append.mp sorted).2.2 b early a List.mem_cons_self
      rw [below] at order
      exact absurd order (List.not_le.mpr (lt_append a.path slash t))
    · rcases List.mem_cons.mp late with rfl | late
      · exact absurd rfl other
      · refine found a b ⟨before,after,split,late⟩ ?_
        intro next inside low high
        exact next_overlaps low high below unshadowed inside

theorem pathConflicts_iff (q : SortPaths) {pathnames : List Tipdata}
    (ordinary : ∀ td ∈ pathnames, Ordinary td)
    (distinct : pathnames.Pairwise fun x y => x.rkey ≠ y.rkey) :
    pathConflicts q pathnames = true ↔ Adjoining pathnames := by
  have perm := q.perm pathnames
  have mem : ∀ td, td ∈ q.sort pathnames ↔ td ∈ pathnames := fun td => perm.mem_iff
  have ordinarySorted : ∀ td ∈ q.sort pathnames, Ordinary td := fun td inside =>
    ordinary td ((mem td).mp inside)
  have sorted : (q.sort pathnames).Pairwise fun x y => x.path ≤ y.path := by
    refine (q.sorted pathnames fun td inside => (ordinary td inside).clean).imp_of_mem ?_
    intro x y insideX _ order
    exact tipdata_sort_le (ordinarySorted x insideX).clean.path order
  have distinctSorted : (q.sort pathnames).Pairwise fun x y => x.rkey ≠ y.rkey :=
    perm.symm.pairwise distinct fun other => other.symm
  have moved : Adjoining (q.sort pathnames) ↔ Adjoining pathnames := by
    unfold Adjoining Unshadowed
    simp only [mem]
  unfold pathConflicts
  rw [neighbours_iff ordinarySorted,← moved]
  constructor
  · rintro ⟨before,a,b,after,split,overlap⟩
    rw [split] at sorted distinctSorted ⊢
    exact neighbours_adjoin sorted distinctSorted overlap
  · exact adjoin_neighbours sorted

def before (a b : Tipdata) : Prop := a.path < b.path ∨ (a.path = b.path ∧ a.rkey ≤ b.rkey)

instance (a b : Tipdata) : Decidable (before a b) := instDecidableOr

instance : Std.Total before where
  total a b := by
    by_cases less : a.path < b.path
    · exact .inl (.inl less)
    by_cases more : b.path < a.path
    · exact .inr (.inl more)
    have same : a.path = b.path := List.le_antisymm (List.not_lt.mp more) (List.not_lt.mp less)
    rcases List.le_total a.rkey b.rkey with low | high
    · exact .inl (.inr ⟨same,low⟩)
    · exact .inr (.inr ⟨same.symm,high⟩)

instance : IsTrans Tipdata before where
  trans a b c := by
    rintro (less | ⟨same,low⟩) (more | ⟨equal,high⟩)
    · exact .inl (List.lt_trans less more)
    · exact .inl (equal ▸ less)
    · exact .inl (same ▸ more)
    · exact .inr ⟨same.trans equal,List.le_trans low high⟩

theorem tipdata_sort_before (clean : CleanTip a) (order : before a b) : tipdata_sort a b ≤ 0 := by
  unfold tipdata_sort
  dsimp only
  rcases order with less | ⟨same,low⟩
  · have compared := strncmp_order (b := b.path) clean.path rfl
    have upper := strncmp_of_le (n := min a.path.length b.path.length) (List.le_of_lt less)
    by_cases differ : strncmp (min a.path.length b.path.length) a.path b.path ≠ 0
    · rwa [if_pos differ]
    rw [if_neg differ]
    have common := compared.2 (not_not.mp differ)
    -- neither is the smaller one by a byte: the smaller one is the shorter one
    have short : a.path.length < b.path.length := by
      by_contra long
      rw [Nat.min_eq_right (Nat.not_lt.mp long),List.take_length] at common
      have split := List.take_append_drop b.path.length a.path
      rw [common] at split
      exact List.not_le.mpr less (split ▸ le_append b.path _)
    rw [if_pos (by omega)]
    omega
  · rw [← same,strncmp_self,if_neg (fun other => other rfl), if_neg (by omega)]
    exact strncmp_of_le low

def insertPaths : SortPaths where
  sort list := list.insertionSort before
  perm list := perm_insertionSort before list
  sorted list clean := by
    refine (pairwise_insertionSort before list).imp_of_mem ?_
    intro a b inside _ order
    exact tipdata_sort_before (clean a ((perm_insertionSort before list).mem_iff.mp inside))
      order

def plainTip (path rkey : Bytes) : Tipdata where
  path := path
  rkey := rkey
  component := false
  gone := false
  present := true
  incommit := false

def plainTips (names : List (Bytes × Bytes)) : List Tipdata :=
  names.map fun name => plainTip name.1 name.2

theorem plainTips_ordinary {names : List (Bytes × Bytes)}
    (fine : ∀ name ∈ names, name.1 ≠ [] ∧ 0 ∉ name.1 ∧ 0 ∉ name.2) :
    ∀ td ∈ plainTips names, Ordinary td := by
  intro td inside
  obtain ⟨name,listed,rfl⟩ := mem_map.mp inside
  obtain ⟨nonempty,cleanPath,cleanKey⟩ := fine name listed
  have clean : CleanTip (plainTip name.1 name.2) :=
    ⟨fun _ byte zero => cleanPath (zero ▸ byte), fun _ byte zero => cleanKey (zero ▸ byte)⟩
  exact ⟨nonempty,clean,rfl,rfl⟩

def adjoiningTips : List Tipdata := plainTips [([97], [49]),([97,98], [50]),([97,47,98], [51])]

def shadowedTips : List Tipdata := plainTips [([97], [49]),([97,46,99], [50]),([97,47,98], [51])]

/-- Errors are reported exactly for overlapping files iff, where files overlap, some adjoin. -/
theorem pathConflicts_exact (q : SortPaths) (pathnames : List Tipdata)
    (ordinary : ∀ td ∈ pathnames, Ordinary td)
    (distinct : pathnames.Pairwise fun x y => x.rkey ≠ y.rkey) :
    (pathConflicts q pathnames = true ↔ Conflicting pathnames) ↔
      (Conflicting pathnames → Adjoining pathnames) := by
  rw [pathConflicts_iff q ordinary distinct]
  constructor
  · intro exact_
    exact exact_.mpr
  intro enough
  refine ⟨?_,enough⟩
  rintro ⟨a,insideA,b,insideB,other,same | ⟨below,_⟩⟩
  · exact ⟨a,insideA,b,insideB,other,.inl same⟩
  · exact ⟨a,insideA,b,insideB,other,.inr (.inl below)⟩

theorem pathConflicts_exact_adjoining : (∀ td ∈ adjoiningTips, Ordinary td) ∧
    (adjoiningTips.Pairwise fun x y => x.rkey ≠ y.rkey) ∧
    ((pathConflicts insertPaths adjoiningTips = true ↔ Conflicting adjoiningTips) ↔
      (Conflicting adjoiningTips → Adjoining adjoiningTips)) :=
  have ordinary : ∀ td ∈ adjoiningTips, Ordinary td := plainTips_ordinary (by decide)
  ⟨ordinary,by decide,pathConflicts_exact insertPaths adjoiningTips ordinary (by decide)⟩

/-- `a.c` comes between `a` and `a/b`, and no conflict is seen. -/
theorem pathConflicts_shadowed : (∀ td ∈ shadowedTips, Ordinary td) ∧
    (shadowedTips.Pairwise fun x y => x.rkey ≠ y.rkey) ∧
    Conflicting shadowedTips ∧ pathConflicts insertPaths shadowedTips = false := by
  refine ⟨plainTips_ordinary (by decide),by decide,?_,by decide⟩
  exact ⟨plainTip [97] [49],by decide,plainTip [97,47,98] [51],by decide,by decide,
    .inr (.inl ⟨[98],rfl⟩)⟩

end BitKeeper.Check
