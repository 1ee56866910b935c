import BitKeeper.Ndiff.Edges
import BitKeeper.Ndiff.Rcs

/-!
What `bk diff` prints turns the old text into the new one. The number of context lines goes through
`diff_cleanOpts` twice, and the second time a zero is taken for no number at all.
-/

namespace BitKeeper.Ndiff

open List Bytes Libdiff

def Whole (line : Bytes) : Prop := Ended line ∨ Unended line

def Seg.lines (s : Seg) : List Bytes := s.common ++ (s.dels ++ s.adds)

private theorem sum_entries (segs : List Seg) :
    ((segs.flatMap entries).map fun entry => entry.1.old).sum = (old segs).length ∧
      ((segs.flatMap entries).map fun entry => entry.1.new).sum = (new segs).length := by
  have constant : ∀ (n : Nat) (lines : List Bytes) (tag : Tag) (f : Tag → Nat), f tag = n →
      ((lines.map fun line => (tag, line)).map fun entry => f entry.1).sum = lines.length * n := by
    intro n lines tag f value
    rw [map_map]
    change (lines.map fun _ => f tag).sum = _
    rw [value,map_const',sum_replicate,smul_eq_mul]
  induction segs with
  | nil => exact ⟨rfl,rfl⟩
  | cons s segs ih =>
    rw [flatMap_cons,map_append,map_append,sum_append,sum_append,ih.1,ih.2,old_cons, new_cons]
    unfold entries inContext
    simp only [map_append,sum_append,length_append]
    rw [constant 1 _ _ Tag.old rfl,constant 1 _ _ Tag.old rfl,constant 0 _ _ Tag.old rfl,
      constant 1 _ _ Tag.new rfl,constant 0 _ _ Tag.new rfl,constant 1 _ _ Tag.new rfl]
    omega

theorem sum_inContext (lines : List Bytes) :
    ((inContext lines).map fun entry => entry.1.old).sum = lines.length ∧
    ((inContext lines).map fun entry => entry.1.new).sum = lines.length := by
  induction lines with
  | nil => exact ⟨rfl,rfl⟩
  | cons line lines ih =>
    unfold inContext at ih ⊢
    rw [map_cons,map_cons,map_cons,sum_cons,sum_cons,ih.1,ih.2,length_cons]
    exact ⟨Nat.add_comm _ _,Nat.add_comm _ _⟩

variable {s : Seg}

theorem mem_entries {entry : Tag × Bytes} (inside : entry ∈ entries s) : entry.2 ∈ s.lines := by
  unfold entries inContext at inside
  unfold Seg.lines
  rw [mem_append,mem_append] at inside ⊢
  rcases inside with listed | listed | listed
  · obtain ⟨line,place,rfl⟩ := mem_map.mp listed
    exact .inl place
  · obtain ⟨line,place,rfl⟩ := mem_map.mp listed
    exact .inr (.inl place)
  · obtain ⟨line,place,rfl⟩ := mem_map.mp listed
    exact .inr (.inr place)

variable {c : Nat}

theorem blockOf_readable {x y : Nat} {more : List Seg} {post : List Bytes}
    (segs : ∀ seg ∈ s :: more, ∀ line ∈ seg.lines, Whole line) (rest : ∀ line ∈ post, Whole line) :
    Readable (blockOf c x y s more post) := by
  have sums := sum_entries (s.clip c :: more)
  have context := sum_inContext (post.take c)
  refine ⟨?_,?_,?_⟩
  · change (old (s.clip c :: more)).length + (post.take c).length =
      ((bodyOf c (s.clip c :: more) post).map _).sum
    unfold bodyOf
    rw [map_append,sum_append,sums.1,context.1]
  · change (new (s.clip c :: more)).length + (post.take c).length =
      ((bodyOf c (s.clip c :: more) post).map _).sum
    unfold bodyOf
    rw [map_append,sum_append,sums.2,context.2]
  intro entry inside
  rcases mem_append.mp inside with changed | behind
  · obtain ⟨seg,listed,place⟩ := mem_flatMap.mp changed
    have line := mem_entries place
    rcases mem_cons.mp listed with rfl | later
    · refine segs s mem_cons_self _ ?_
      rcases mem_append.mp line with common | change
      · exact mem_append_left _ (mem_of_mem_drop common)
      · exact mem_append_right _ change
    · exact segs seg (mem_cons_of_mem s later) _ line
  · obtain ⟨line,place,rfl⟩ := mem_map.mp behind
    exact rest line (mem_of_mem_take place)

theorem blocksOf_readable {x y : Nat} {tail : List Bytes} {more rest : List Seg}
    (segs : ∀ seg ∈ s :: more, ∀ line ∈ seg.lines, Whole line)
    (later : ∀ seg ∈ rest, ∀ line ∈ seg.lines, Whole line) (end_ : ∀ line ∈ tail, Whole line) :
    ∀ b ∈ blocksOf c tail x y s more rest, Readable b := by
  fun_induction blocksOf c tail x y s more rest with
  | case1 => exact forall_mem_singleton.mpr (blockOf_readable segs end_)
  | case2 x y s more next rest wide ih =>
    obtain ⟨first,others⟩ := forall_mem_cons.mp later
    exact forall_mem_cons.mpr
      ⟨blockOf_readable segs fun line place => first line (mem_append_left _ place),
      ih (forall_mem_singleton.mpr first) others⟩
  | case3 x y s more next rest wide ih =>
    obtain ⟨first,others⟩ := forall_mem_cons.mp later
    refine ih ?_ others
    intro seg listed
    rw [← cons_append] at listed
    rcases mem_append.mp listed with before | last
    · exact segs seg before
    · rwa [mem_singleton.mp last]

theorem dropCrs_plain {body : Bytes} (plain : newline ∉ body) : newline ∉ dropCrs body := by
  unfold dropCrs
  exact fun inside =>
    plain (mem_reverse.mp ((dropWhile_sublist _).subset (mem_reverse.mp inside)))

section Saved
variable (strip ignore : Bool) {line : Bytes}

theorem savedLine_ended (ended : Ended line) : Ended (savedLine strip ignore line) := by
  unfold savedLine
  rw [if_pos ended.last]
  split
  · exact ended_concat (dropCrs_plain ended.once)
  · exact ended

theorem savedLine_unended (unended : Unended line) : Whole (savedLine strip ignore line) := by
  unfold savedLine
  rw [if_neg unended.last]
  split
  · exact .inl (ended_concat (dropCrs_plain unended.none_))
  · exact .inr unended

private theorem lined_saved {list : List Bytes} (lined : Lined list) :
    Lined (list.map (savedLine strip ignore)) := by
  induction lined with
  | nil => exact .nil
  | last unended =>
    rcases savedLine_unended strip ignore unended with ended | unended
    · exact .cons ended .nil
    · exact .last unended
  | cons ended _ ih => exact .cons (savedLine_ended strip ignore ended) ih

end Saved

variable {dop : DfOpt} {left right : Bytes}

theorem lined_savedLines (text : Bytes) : Lined (savedLines dop text) :=
  lined_saved _ _ (lined_lines text)

theorem saved_whole (text : Bytes) : ∀ line ∈ savedLines dop text, Whole line :=
  fun _ inside => (lined_savedLines text).mem inside

private theorem title_plain (idx : Nat) : newline ∉ title (fnDefs dop left) idx := by
  have defs : ∀ def_ ∈ fnDefs dop left, newline ∉ def_.2 := by
    intro def_ inside
    unfold fnDefs at inside
    split at inside
    · cases inside
    obtain ⟨⟨line,lno⟩,listed,kept⟩ := mem_filterMap.mp inside
    split at kept
    next matched =>
      rw [← Option.some.inj kept]
      have raw : Ended line := ((lined_lines left).mem (fst_mem_of_mem_zipIdx listed)).resolve_right
        fun unended => unended.last matched.1
      have ended : Ended (dop.saved line) := savedLine_ended _ _ raw
      intro found
      -- everything that is left of the line comes from in front of its newline
      have kept₁ : newline ∈ chomp (dop.saved line) := by
        have first := (dropWhile_sublist _).subset (mem_reverse.mp found)
        exact (dropWhile_sublist _).subset (mem_reverse.mp first)
      unfold chomp at kept₁
      rw [mem_reverse,ended.split,reverse_append] at kept₁
      change newline ∈ List.dropWhile _ (newline :: (dop.saved line).dropLast.reverse) at kept₁
      rw [dropWhile_cons,if_pos (by decide)] at kept₁
      exact ended.once (mem_reverse.mp ((dropWhile_sublist _).subset kept₁))
    · cases kept
  unfold title
  cases found : (fnDefs dop left).reverse.find? fun def_ => def_.1 < idx with
  | none => exact not_mem_nil
  | some def_ =>
    have plain := defs def_ (mem_reverse.mp (mem_of_find?_eq_some found))
    exact fun inside => (mem_cons.mp inside).elim (by decide) fun name => plain (mem_of_mem_take name)

private theorem segs_whole {left right : List Bytes} {segs : List Seg} {tail : List Bytes}
    (leftCut : left = old segs ++ tail) (rightCut : right = new segs ++ tail)
    (leftWhole : ∀ line ∈ left, Whole line) (rightWhole : ∀ line ∈ right, Whole line) :
    (∀ seg ∈ segs, ∀ line ∈ seg.lines, Whole line) ∧ ∀ line ∈ tail, Whole line := by
  constructor
  · intro seg listed line place
    have inOld : ∀ line ∈ seg.common ++ seg.dels, line ∈ left := fun line inside =>
      leftCut ▸ mem_append_left _ (mem_flatMap.mpr ⟨seg,listed,inside⟩)
    have inNew : ∀ line ∈ seg.common ++ seg.adds, line ∈ right := fun line inside =>
      rightCut ▸ mem_append_left _ (mem_flatMap.mpr ⟨seg,listed,inside⟩)
    rcases mem_append.mp place with common | change
    · exact leftWhole line (inOld line (mem_append_left _ common))
    · rcases mem_append.mp change with deleted | added
      · exact leftWhole line (inOld line (mem_append_right _ deleted))
      · exact rightWhole line (inNew line (mem_append_right _ added))
  · exact fun line inside => leftWhole line (leftCut ▸ mem_append_right _ inside)

variable {env : Env}

/-- Either nothing differs in what is saved, or the hunks are printed in the style of the options. -/
theorem diff_mem_hunks (clean : diff_cleanOpts dop = some dop) (textL : 0 ∉ left) (textR : 0 ∉ right)
    (noWrap : diffLines env dop.minimal (savedLines dop left) (savedLines dop right) ≠ .error .wrap) :
    (savedLines dop left = savedLines dop right ∧ (diff_mem env dop left right).2 = .ok (0, [])) ∨
      ∃ s rest tail, savedLines dop left = old (s :: rest) ++ tail ∧
        savedLines dop right = new (s :: rest) ++ tail ∧
        (∀ seg ∈ s :: rest, 0 < seg.dels.length + seg.adds.length) ∧ (∀ seg ∈ rest, seg.common ≠ []) ∧
        (diff_mem env dop left right).2 = (printHunks dop (fnDefs dop left) (savedLines dop left)
          (savedLines dop right) (hunksOf 1 1 (s :: rest))).map fun out => (1, out) := by
  have equal : Equivalence fun a b => cmpLine a b = true :=
    ⟨fun _ => beq_self_eq_true _, fun same => beq_iff_eq.mpr (beq_iff_eq.mp same).symm,
      fun first second => beq_iff_eq.mpr ((beq_iff_eq.mp first).trans (beq_iff_eq.mp second))⟩
  unfold diff_mem
  rw [clean]
  dsimp only
  by_cases same : left = right
  · subst same
    exact .inl ⟨rfl,if_pos rfl⟩
  obtain ⟨hunks,run,script⟩ := diff_items_runs equal 1 1 dop.minimal _ _ _ env.vf env.vr noWrap
  change diffLines _ _ _ _ = _ at run
  rw [if_neg same,if_neg (not_or.mpr ⟨textL,textR⟩),run]
  obtain ⟨segs,tail,leftCut,rightCut,rfl,changed,commons⟩ := script_segs script
  cases segs with
  | nil => exact .inl ⟨leftCut.trans rightCut.symm,rfl⟩
  | cons s rest => exact .inr ⟨s,rest,tail,leftCut,rightCut,changed,commons,rfl⟩

section Styles
variable (env) (clean : diff_cleanOpts dop = some dop) (textL : 0 ∉ left) (textR : 0 ∉ right)
  (noWrap : diffLines env dop.minimal (savedLines dop left) (savedLines dop right) ≠ .error .wrap)
include clean textL textR noWrap

theorem unified_correct (style : dop.out_unified = true) (context : dop.context = c)
    (fitsL : (savedLines dop left).length + 2 * c < 2147483647)
    (fitsR : (savedLines dop right).length + 2 * c < 2147483647) :
    ∃ rc out blocks, (diff_mem env dop left right).2 = .ok (rc, out) ∧
      UnifiedCorrect c (savedLines dop left).flatten (savedLines dop right).flatten out blocks := by
  have cutL : lines (savedLines dop left).flatten = savedLines dop left :=
    lines_flatten (lined_savedLines left)
  rcases diff_mem_hunks clean textL textR noWrap with ⟨same,result⟩ |
    ⟨s,rest,tail,leftCut,rightCut,changed,_,result⟩
  · refine ⟨0,[],[],result,rfl,.nil,trivial,?_⟩
    change some (lines _).flatten = _
    rw [cutL,same]
  have whole := segs_whole leftCut rightCut (saved_whole left) (saved_whole right)
  obtain ⟨here,later⟩ := forall_mem_cons.mp changed
  obtain ⟨hereLines,laterLines⟩ := forall_mem_cons.mp whole.1
  have size : (savedLines dop left).length + 1 =
      1 + (old [s]).length + (old rest).length + tail.length := by
    rw [leftCut,old_cons,old_single]
    simp only [length_append]
    omega
  have blocks :=
    printUnified_blocks (fnDefs dop left) tail changed (leftCut ▸ fitsL) (rightCut ▸ fitsR)
  rw [← leftCut,← rightCut] at blocks
  unfold printHunks at result
  rw [if_pos style,context,blocks] at result
  have read := readUnified_blocks (fnDefs dop left)
    (blocksOf_readable (c := c) (x := 1) (y := 1) (forall_mem_singleton.mpr hereLines)
      laterLines whole.2)
    fun b _ => title_plain b.firstChange
  refine ⟨1,_,_,result,read,blocksOf_ordered (Nat.le_refl 1) (Nat.le_refl 1) tail [] rest,?_,?_⟩
  · rw [cutL]
    exact edges_blocksOf (Nat.le_refl 1) (forall_mem_singleton.mpr here) later size
  have applied : applyBlocks (1 + 0) (1 + 0) (blocksOf c tail 1 1 s [] rest)
      ((old [s] ++ (old rest ++ tail)).drop 0) = some ((new [s] ++ (new rest ++ tail)).drop 0) :=
    applyBlocks_blocksOf (Nat.le_refl 1) (Nat.le_refl 1) [] tail (Nat.zero_le _)
  rw [drop_zero,drop_zero,old_single,new_single] at applied
  rw [cutL,leftCut,old_cons]
  simp only [append_assoc] at applied ⊢
  rw [applied,rightCut,new_cons]
  simp only [append_assoc,Option.map_some]

private theorem rcs_correct (style : dop.out_unified = false) (script : dop.out_rcs = true) :
    ∃ rc out commands, (diff_mem env dop left right).2 = .ok (rc, out) ∧
      RcsCorrect (savedLines dop left).flatten (savedLines dop right).flatten out commands := by
  have cutL : lines (savedLines dop left).flatten = savedLines dop left :=
    lines_flatten (lined_savedLines left)
  rcases diff_mem_hunks clean textL textR noWrap with ⟨same,result⟩ |
    ⟨s,rest,tail,leftCut,rightCut,changed,commons,result⟩
  · refine ⟨0,[],[],result,rfl,.nil,?_⟩
    change some (lines _).flatten = _
    rw [cutL,same]
  have whole : savedLines dop right = [] ++ (new (s :: rest) ++ tail) := rightCut
  have text := printRCS_commands [] 1 whole
  have behind : ∀ seg ∈ (s :: rest).tail, seg.common ≠ [] := commons
  have lined := commands_lined 1 (rightCut ▸ lined_savedLines right) behind
  unfold printHunks at result
  rw [if_neg (by rw [style]; exact Bool.false_ne_true),if_pos script] at result
  refine ⟨1,_,commandsOf 1 (s :: rest),result,?_,commandsOf_ordered (Nat.le_refl 1) behind,?_⟩
  · unfold readRCS
    rw [show printRCS _ (hunksOf 1 1 (s :: rest)) = _ from text,lines_flatten lined,
      readCommands_commands]
    rfl
  · rw [cutL,leftCut,applyRCS_commands (Nat.le_refl 1) changed,← rightCut]
    rfl

end Styles

def startOpts (out_show_c_func minimal : Bool) (pattern : Option (Bytes → Bool)) : DfOpt where
  out_unified := true
  out_rcs := false
  out_show_c_func := out_show_c_func
  minimal := minimal
  strip_trailing_cr := false
  ignore_trailing_cr := false
  pattern := pattern
  context := 0

theorem diffEach_get (env : Env) {cleaned : DfOpt}
    (clean : diff_cleanOpts { dop with ignore_trailing_cr := true } = some cleaned)
    (again : diff_cleanOpts { cleaned with ignore_trailing_cr := true } = some cleaned)
    (ignores : cleaned.ignore_trailing_cr = true) (files : List (Bytes × Bytes)) (i : Nat) :
    (diffEach env dop files)[i]? =
      files[i]?.map fun file => (diff_mem env cleaned file.1 file.2).2 := by
  have kept : { cleaned with ignore_trailing_cr := true } = cleaned := by rw [← ignores]
  induction files generalizing dop i with
  | nil => rfl
  | cons file files ih =>
    have first : doDiff env dop file = (cleaned, (diff_mem env cleaned file.1 file.2).2) := by
      rw [kept] at again
      unfold doDiff diff_mem
      rw [clean,again]
    unfold diffEach
    rw [first]
    cases i with
    | zero => rfl
    | succ i => exact ih again i

/-- The options that every `diff_mem` of a `diff_main` works with. -/
def seenOpts (dop : DfOpt) : DfOpt := { dop with
    strip_trailing_cr := true
    ignore_trailing_cr := true
    pattern := if dop.out_show_c_func ∧ dop.pattern.isNone then some cFunction else dop.pattern
    context := if 0 < dop.context then dop.context else 3 }

theorem pattern_twice (show_ : Bool) (pattern : Option (Bytes → Bool)) :
    let once := if show_ ∧ pattern.isNone then some cFunction else pattern
    (if show_ ∧ once.isNone then some cFunction else once) = once := by
  dsimp only
  by_cases default : show_ = true ∧ pattern.isNone = true
  · rw [if_pos default,if_neg fun both => absurd both.2 (by simp)]
  · rw [if_neg default,if_neg default]

theorem diff_cleanOpts_twice (one : ¬ (dop.out_unified = true ∧ dop.out_rcs = true)) :
    ∃ once, diff_cleanOpts dop = some once ∧
      diff_cleanOpts { once with ignore_trailing_cr := true } = some (seenOpts dop) ∧
      diff_cleanOpts (seenOpts dop) = some (seenOpts dop) := by
  refine ⟨_,if_neg one,(if_neg one).trans (congrArg some ?_),(if_neg one).trans (congrArg some ?_)⟩
  · unfold seenOpts
    dsimp only
    rw [pattern_twice,Bool.or_true]
    congr 1
    split_ifs <;> omega
  · unfold seenOpts
    dsimp only
    rw [pattern_twice,Bool.or_true]
    congr 1
    split_ifs <;> omega

variable (env) in
theorem diff_main_get (one : ¬ (dop.out_unified = true ∧ dop.out_rcs = true))
    {files : List (Bytes × Bytes)} {i : Nat} (at_ : files[i]? = some (left, right)) :
    ∃ results, diff_main env dop files = some results ∧
      results[i]? = some (diff_mem env (seenOpts dop) left right).2 := by
  obtain ⟨once,first,second,third⟩ := diff_cleanOpts_twice one
  have each := diffEach_get env second third rfl files i
  rw [at_,Option.map_some] at each
  unfold diff_main
  rw [first]
  exact ⟨_,rfl,each⟩

/-- The unified diff has the wanted context, and both styles turn the old text into the new one. -/
structure DiffCorrect (env : Env) (dop : DfOpt) (n : Nat) (files : List (Bytes × Bytes)) (i : Nat)
    (left right : Bytes) : Prop where
  unified : ∃ results rc out blocks, diff_main env (optU n dop) files = some results ∧
    results[i]? = some (.ok (rc, out)) ∧ UnifiedCorrect n left right out blocks
  rcs : ∃ results rc out commands, diff_main env (optN dop) files = some results ∧
    results[i]? = some (.ok (rc, out)) ∧ RcsCorrect left right out commands

/-- The lines of a text as `bk diff` compares and prints them. -/
def comparedLines (text : Bytes) : List Bytes := (lines text).map (savedLine true true)

def lengthEnv : Env := ⟨List.length,fun _ _ _ _ _ => 0, fun _ => 0, fun _ => 0⟩

end BitKeeper.Ndiff
