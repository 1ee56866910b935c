import BitKeeper.Ndiff.Patch

/-!
The hunks as segments of common, deleted and added lines. From them come the blocks of a unified
diff, and `printUnified` prints exactly these blocks.
-/

namespace BitKeeper.Ndiff

open List Bytes Libdiff

structure Seg where
  common : List Bytes
  dels : List Bytes
  adds : List Bytes

def old (segs : List Seg) : List Bytes := segs.flatMap fun s => s.common ++ s.dels

def new (segs : List Seg) : List Bytes := segs.flatMap fun s => s.common ++ s.adds

def hunksOf : Nat → Nat → List Seg → List Hunk
  | _, _, [] => []
  | x, y, s :: rest =>
    { lstart := x + s.common.length, llen := s.dels.length
      rstart := y + s.common.length, rlen := s.adds.length } ::
      hunksOf (x + s.common.length + s.dels.length) (y + s.common.length + s.adds.length) rest

variable (s : Seg)

theorem old_cons (rest : List Seg) : old (s :: rest) = s.common ++ (s.dels ++ old rest) := by
  unfold old
  rw [flatMap_cons,append_assoc]

theorem new_cons (rest : List Seg) : new (s :: rest) = s.common ++ (s.adds ++ new rest) := by
  unfold new
  rw [flatMap_cons,append_assoc]

theorem old_concat (cur : List Seg) (s : Seg) :
    old (cur ++ [s]) = old cur ++ (s.common ++ s.dels) := by
  unfold old
  rw [flatMap_append,flatMap_singleton]

theorem new_concat (cur : List Seg) (s : Seg) :
    new (cur ++ [s]) = new cur ++ (s.common ++ s.adds) := by
  unfold new
  rw [flatMap_append,flatMap_singleton]

theorem old_single : old [s] = s.common ++ s.dels := flatMap_singleton _ _

theorem new_single : new [s] = s.common ++ s.adds := flatMap_singleton _ _

variable {x y : Nat}

theorem script_segs {l r : List Bytes} {hunks : List Hunk}
    (script : Script (fun a b => cmpLine a b = true) x y l r hunks) :
    ∃ segs tail, l = old segs ++ tail ∧ r = new segs ++ tail ∧ hunks = hunksOf x y segs ∧
      (∀ s ∈ segs, 0 < s.dels.length + s.adds.length) ∧ ∀ s ∈ segs.tail, s.common ≠ [] := by
  have equal : ∀ {a b : List Bytes}, List.Forall₂ (fun a b => cmpLine a b = true) a b → a = b := by
    intro a b common
    have lines : List.Forall₂ Eq a b := common.imp fun _ _ same => beq_iff_eq.mp same
    exact forall₂_eq_eq_eq ▸ lines
  induction script with
  | @same x y l r common =>
    rw [equal common]
    exact ⟨[],r,rfl,rfl,rfl,nofun,
      nofun⟩
  | @hunk x y cl cr dl dr l r hunks common changed rest apart ih =>
    obtain ⟨segs,tail,left,right,same,changes,commons⟩ := ih
    rw [equal common] at apart same ⊢
    refine ⟨⟨cr,dl,dr⟩ :: segs,tail,?_,?_,?_,forall_mem_cons.mpr ⟨changed,changes⟩,?_⟩
    · rw [left,old_cons,append_assoc,append_assoc]
    · rw [right,new_cons,append_assoc,append_assoc]
    · rw [same]
      rfl
    intro s inside empty
    cases segs with
    | nil => cases inside
    | cons first others =>
      rcases mem_cons.mp inside with rfl | later
      · rw [same] at apart
        have below := (apart _ mem_cons_self).1
        rw [empty] at below
        exact absurd below (Nat.lt_irrefl _)
      · exact commons s later empty

theorem hunksOf_append (x y : Nat) (cur rest : List Seg) : hunksOf x y (cur ++ rest) =
    hunksOf x y cur ++ hunksOf (x + (old cur).length) (y + (new cur).length) rest := by
  induction cur generalizing x y with
  | nil => rfl
  | cons first cur ih =>
    rw [cons_append]
    conv_lhs => unfold hunksOf
    conv_rhs => lhs; unfold hunksOf
    rw [ih,old_cons,new_cons,cons_append]
    simp only [length_append,Nat.add_assoc]

def inContext (lines : List Bytes) : List (Tag × Bytes) := lines.map fun line => (.context, line)

def entries (s : Seg) : List (Tag × Bytes) :=
  inContext s.common ++
    (s.dels.map (fun line => (.delete, line)) ++ s.adds.map fun line => (.insert, line))

def Seg.skip (s : Seg) (c : Nat) : Nat := s.common.length - c

def Seg.clip (s : Seg) (c : Nat) : Seg := { s with common := s.common.drop (s.skip c) }

def bodyOf (c : Nat) (cur : List Seg) (post : List Bytes) : List (Tag × Bytes) :=
  cur.flatMap entries ++ inContext (post.take c)

def blockOf (c x y : Nat) (s : Seg) (more : List Seg) (post : List Bytes) : Block :=
  let cur := s.clip c :: more
  let lcount := (old cur).length + (post.take c).length
  let rcount := (new cur).length + (post.take c).length
  { lnum := after (x + s.skip c) lcount, lcount := lcount
    rnum := after (y + s.skip c) rcount, rcount := rcount
    body := bodyOf c cur post }

def blocksOf (c : Nat) (tail : List Bytes) (x y : Nat) (s : Seg) (more : List Seg) :
    List Seg → List Block
  | [] => [blockOf c x y s more tail]
  | next :: rest =>
    if 2 * c + 1 < next.common.length then
      blockOf c x y s more next.common ::
        blocksOf c tail (x + (old (s :: more)).length) (y + (new (s :: more)).length) next [] rest
    else blocksOf c tail x y s (more ++ [next]) rest

theorem old_clip (c : Nat) (more : List Seg) :
    old (s :: more) = s.common.take (s.skip c) ++ old (s.clip c :: more) := by
  rw [old_cons,old_cons,← append_assoc (s.common.take _)]
  unfold Seg.clip
  rw [take_append_drop]

theorem new_clip (c : Nat) (more : List Seg) :
    new (s :: more) = s.common.take (s.skip c) ++ new (s.clip c :: more) := by
  rw [new_cons,new_cons,← append_assoc (s.common.take _)]
  unfold Seg.clip
  rw [take_append_drop]

theorem skip_clip (c : Nat) : s.skip c + (s.clip c).common.length = s.common.length := by
  unfold Seg.clip Seg.skip
  rw [length_drop]
  omega

private theorem hunksOf_clip (c x y : Nat) (s : Seg) (more : List Seg) :
    hunksOf (x + s.skip c) (y + s.skip c) (s.clip c :: more) = hunksOf x y (s :: more) := by
  unfold hunksOf
  rw [Nat.add_assoc x,Nat.add_assoc y,skip_clip]
  rfl

def entryLine (entry : Tag × Bytes) : Bytes := entry.1.mark :: entry.2

def printEntries (body : List (Tag × Bytes)) : Bytes :=
  body.flatMap fun entry => printLine [entry.1.mark] true entry.2

theorem printEntries_append (first second : List (Tag × Bytes)) :
    printEntries (first ++ second) = printEntries first ++ printEntries second := flatMap_append

variable {before rest : List Bytes}

theorem printHunk_mid (mark : Bytes) (warn : Bool) {lines mid : List Bytes} {start : Nat}
    (cut : lines = before ++ (mid ++ rest)) (place : start = before.length + 1) :
    printHunk mark start mid.length lines warn = mid.flatMap (printLine mark warn) := by
  unfold printHunk
  rw [cut,place,Nat.add_sub_cancel,drop_left,take_left]

theorem printEntries_entries : printEntries (entries s) =
    s.common.flatMap (printLine [32] true) ++ (s.dels.flatMap (printLine [45] true) ++
      s.adds.flatMap (printLine [43] true)) := by
  unfold printEntries entries inContext
  rw [flatMap_append,flatMap_append,flatMap_map,flatMap_map,flatMap_map]
  rfl

variable {bounds : Hunk} {from_ : Option Hunk}

private theorem mkCommon_hunk {n : Nat} (start : startOf bounds from_ = (x, y)) {h : Hunk}
    (left : h.lstart = x + n) (right : h.rstart = y + n) :
    mkCommon bounds from_ (some h) = .ok { lstart := x, llen := n, rstart := y, rlen := n } := by
  unfold mkCommon
  rw [mkCommon_from start]
  unfold diff_mkCommon Hunk.lend Hunk.rend
  dsimp only
  rw [left,right,if_pos (by omega),Nat.add_zero,Nat.add_zero,Nat.add_sub_cancel_left,
    Nat.add_sub_cancel_left]
  rfl

theorem mkCommon_end {n : Nat} (start : startOf bounds from_ = (x, y)) (left : bounds.lend = x + n)
    (right : bounds.rend = y + n) :
    mkCommon bounds from_ none = .ok { lstart := x, llen := n, rstart := y, rlen := n } := by
  unfold mkCommon
  rw [mkCommon_from start]
  unfold diff_mkCommon
  rw [left,right]
  unfold Hunk.lend Hunk.rend
  dsimp only
  rw [if_pos (by omega),Nat.add_zero,Nat.add_zero,Nat.add_sub_cancel_left,Nat.add_sub_cancel_left]
  rfl

variable {left right : List Bytes}

theorem blockBody_segs {before' rest' post : List Bytes} {segs : List Seg}
    (leftCut : left = before ++ (old segs ++ (post ++ rest)))
    (rightCut : right = before' ++ (new segs ++ (post ++ rest')))
    (start : startOf bounds from_ = (before.length + 1, before'.length + 1))
    (lend : bounds.lend = before.length + 1 + (old segs).length + post.length)
    (rend : bounds.rend = before'.length + 1 + (new segs).length + post.length) :
    blockBody left right bounds from_ (hunksOf (before.length + 1) (before'.length + 1) segs) =
      .ok (printEntries (segs.flatMap entries ++ inContext post)) := by
  induction segs generalizing before before' from_ with
  | nil =>
    have common := mkCommon_end (n := post.length) start lend rend
    unfold hunksOf blockBody
    rw [common]
    change Except.ok (printHunk [32] (before.length + 1) post.length left true) = _
    have whole : left = before ++ (post ++ rest) := leftCut
    rw [printHunk_mid [32] true whole rfl]
    unfold printEntries inContext
    rw [flatMap_nil,nil_append,flatMap_map]
    rfl
  | cons s segs ih =>
    rw [old_cons,append_assoc,append_assoc] at leftCut
    rw [new_cons,append_assoc,append_assoc] at rightCut
    rw [old_cons,length_append,length_append] at lend
    rw [new_cons,length_append,length_append] at rend
    have common := mkCommon_hunk (n := s.common.length) start
      (h := ⟨before.length + 1 + s.common.length,s.dels.length,before'.length + 1 + s.common.length,
        s.adds.length⟩)
      rfl rfl
    have leftPast : (before ++ (s.common ++ s.dels)).length + 1 =
        before.length + 1 + s.common.length + s.dels.length := by
      rw [length_append,length_append]
      omega
    have rightPast : (before' ++ (s.common ++ s.adds)).length + 1 =
        before'.length + 1 + s.common.length + s.adds.length := by
      rw [length_append,length_append]
      omega
    have later : blockBody left right bounds (some ⟨before.length + 1 + s.common.length,s.dels.length,
          before'.length + 1 + s.common.length,s.adds.length⟩)
        (hunksOf ((before ++ (s.common ++ s.dels)).length + 1)
          ((before' ++ (s.common ++ s.adds)).length + 1) segs) =
          .ok (printEntries (segs.flatMap entries ++ inContext post)) :=
      ih (by rw [leftCut,append_assoc,append_assoc])
        (by rw [rightCut,append_assoc,append_assoc]) (by rw [leftPast,rightPast]; rfl) (by omega)
          (by omega)
    rw [leftPast,rightPast] at later
    have dels : printHunk [45] (before.length + 1 + s.common.length) s.dels.length left true =
        s.dels.flatMap (printLine [45] true) :=
      printHunk_mid [45] true (leftCut.trans (append_assoc before s.common _).symm)
        (by rw [length_append]; omega)
    have adds : printHunk [43] (before'.length + 1 + s.common.length) s.adds.length right true =
        s.adds.flatMap (printLine [43] true) :=
      printHunk_mid [43] true (rightCut.trans (append_assoc before' s.common _).symm)
        (by rw [length_append]; omega)
    unfold hunksOf blockBody
    rw [common]
    rw [later]
    change Except.ok (printHunk [32] (before.length + 1) s.common.length left true ++ _) = _
    rw [printHunk_mid [32] true leftCut rfl,dels,adds,flatMap_cons,append_assoc,
      printEntries_append (entries s),printEntries_entries,append_assoc,append_assoc]

theorem cint_ok {x : Int} (low : -2147483648 ≤ x) (high : x < 2147483648) : cint x = .ok x :=
  if_pos ⟨low,high⟩

variable {c : Nat}

theorem bound_block {pre stop q total : Nat} (first : 1 ≤ x) (order : x + pre ≤ stop)
    (fits : stop + c < 2147483648) (lead : x = 1 ∨ c ≤ pre) (trail : stop + q = total + 1 ∨ q = c)
    (few : q ≤ c) (inside : stop + q ≤ total + 1) :
    bound c (x + pre : Nat) stop 1 (total + 1) = .ok (x + (pre - c), stop + q - (x + (pre - c))) := by
  unfold bound
  rw [cint_ok (by omega) (by omega),Except.bind,cint_ok (by omega) (by omega)]
  simp only [Except.map]
  congr 2 <;> omega

private theorem hunksOf_last (x y : Nat) (s : Seg) (more : List Seg) :
    ∃ last, (hunksOf x y (s :: more)).getLast? = some last ∧
      last.lend = x + (old (s :: more)).length ∧
      last.rend = y + (new (s :: more)).length := by
  induction more generalizing x y s with
  | nil =>
    refine ⟨_,rfl,?_,?_⟩
    · rw [old_cons,length_append,length_append]
      exact Nat.add_assoc _ _ _
    · rw [new_cons,length_append,length_append]
      exact Nat.add_assoc _ _ _
  | cons next more ih =>
    obtain ⟨last,at_,lend,rend⟩ :=
      ih (x + s.common.length + s.dels.length) (y + s.common.length + s.adds.length) next
    refine ⟨last,?_,?_,?_⟩
    · unfold hunksOf
      rw [getLast?_cons,at_]
      rfl
    · rw [lend,old_cons s,length_append,length_append]
      omega
    · rw [rend,new_cons s,length_append,length_append]
      omega

def spanText (num count : Nat) : Bytes := decimal num ++ if count ≠ 1 then 44 :: decimal count else []

def headerLine (b : Block) (name : Bytes) : Bytes :=
  [64,64,32,45] ++ (spanText b.lnum b.lcount ++ ([32,43] ++ (spanText b.rnum b.rcount ++
    ([32,64,64] ++ (name ++ [newline])))))

def blockText (fn_defs : List (Nat × Bytes)) (b : Block) : Bytes :=
  headerLine b (title fn_defs b.firstChange) ++ printEntries b.body

theorem after_start {start len : Nat} (first : 1 ≤ start) :
    (if len = 0 then after start len + 1 else after start len) = start := by
  unfold after
  by_cases empty : len = 0
  · rw [if_pos empty,if_pos empty]
    omega
  · rw [if_neg empty,if_neg empty]

section blocks
variable {c x y : Nat} {s : Seg} (more : List Seg) (post : List Bytes)

theorem blockOf_lstart (first : 1 ≤ x) : (blockOf c x y s more post).lstart = x + s.skip c :=
  after_start (by omega)

theorem blockOf_rstart (first : 1 ≤ y) : (blockOf c x y s more post).rstart = y + s.skip c :=
  after_start (by omega)

theorem takeWhile_inContext (lines : List Bytes) {rest : List (Tag × Bytes)}
    (stops : ∀ entry ∈ rest.head?, entry.1 ≠ .context) :
    ((inContext lines ++ rest).takeWhile fun line => line.1 = .context) = inContext lines := by
  have all : ∀ entry ∈ inContext lines, decide (entry.1 = Tag.context) = true := by
    intro entry inside
    obtain ⟨line,_,rfl⟩ := mem_map.mp inside
    rfl
  rw [takeWhile_append_of_pos all]
  cases rest with
  | nil => exact append_nil _
  | cons entry rest =>
    rw [takeWhile_cons,decide_eq_false (stops entry rfl)]
    exact append_nil _

theorem change_edges (changed : 0 < s.dels.length + s.adds.length) :
    ∃ first last mid,
      (s.dels.map (fun line => (Tag.delete, line)) ++ s.adds.map fun line => (Tag.insert, line)) =
        first :: mid ∧ (first :: mid).getLast? = some last ∧ first.1 ≠ .context ∧
          last.1 ≠ .context := by
  have tags : ∀ entry ∈ s.dels.map (fun line => (Tag.delete, line)) ++ s.adds.map fun line =>
    (Tag.insert, line),
      entry.1 ≠ .context := by
    intro entry inside
    rcases mem_append.mp inside with deleted | added
    · obtain ⟨line,_,rfl⟩ := mem_map.mp deleted
      exact Tag.noConfusion
    · obtain ⟨line,_,rfl⟩ := mem_map.mp added
      exact Tag.noConfusion
  cases known : s.dels.map (fun line => (Tag.delete, line)) ++ s.adds.map fun line =>
    (Tag.insert, line) with
  | nil =>
    have none_ := congrArg List.length known
    rw [length_append,length_map,length_map] at none_
    exact absurd none_ (Nat.ne_of_gt changed)
  | cons first mid =>
    rw [known] at tags
    have last := getLast?_eq_some_getLast (cons_ne_nil first mid)
    exact ⟨first,_,mid,rfl,last,tags first mem_cons_self,tags _ (getLast_mem _)⟩

theorem blockOf_lead (changed : 0 < s.dels.length + s.adds.length) :
    (blockOf c x y s more post).lead = (s.clip c).common.length := by
  obtain ⟨first,_,mid,change,_,head,_⟩ := change_edges changed
  have body : (blockOf c x y s more post).body = inContext (s.clip c).common ++
      (first :: mid ++ (more.flatMap entries ++ inContext (post.take c))) := by
    change bodyOf c (s.clip c :: more) post = _
    unfold bodyOf
    rw [flatMap_cons,append_assoc]
    change inContext (s.clip c).common ++ (s.dels.map _ ++ s.adds.map _) ++ _ = _
    rw [change,append_assoc]
  unfold Block.lead
  rw [body,takeWhile_inContext]
  · exact length_map ..
  · intro entry at_
    rwa [← Option.some.inj at_]

theorem blockOf_firstChange (first : 1 ≤ x) (changed : 0 < s.dels.length + s.adds.length) :
    (blockOf c x y s more post).firstChange = x + s.common.length := by
  unfold Block.firstChange
  rw [blockOf_lstart more post first,blockOf_lead more post changed,Nat.add_assoc,skip_clip]

end blocks

variable (fn_defs : List (Nat × Bytes))

theorem printUBlock_block {before' rest' post : List Bytes} {s : Seg} {more : List Seg}
    (leftCut : left = before ++ (old (s :: more) ++ (post ++ rest)))
    (rightCut : right = before' ++ (new (s :: more) ++ (post ++ rest')))
    (changed : 0 < s.dels.length + s.adds.length)
    (lead : (before = [] ∧ before' = []) ∨ c ≤ s.common.length)
    (trail : (rest = [] ∧ rest' = []) ∨ c ≤ post.length)
    (leftFits : before.length + 1 + (old (s :: more)).length + c < 2147483648)
    (rightFits : before'.length + 1 + (new (s :: more)).length + c < 2147483648) :
    printUBlock left right c fn_defs
      { lstart := 1, llen := left.length, rstart := 1, rlen := right.length }
        (hunksOf (before.length + 1) (before'.length + 1) (s :: more)) =
      .ok (blockText fn_defs (blockOf c (before.length + 1) (before'.length + 1) s more post)) := by
  obtain ⟨last,lastAt,lend,rend⟩ := hunksOf_last (before.length + 1) (before'.length + 1) s more
  have skipped := skip_clip s c
  have taken : (post.take c).length = min c post.length := length_take ..
  have oldSize : (old (s :: more)).length = s.skip c + (old (s.clip c :: more)).length := by
    rw [old_clip s c,length_append,length_take]
    omega
  have newSize : (new (s :: more)).length = s.skip c + (new (s.clip c :: more)).length := by
    rw [new_clip s c,length_append,length_take]
    omega
  have leftSize : left.length =
      before.length + ((old (s :: more)).length + (post.length + rest.length)) := by
    rw [leftCut,length_append,length_append,length_append]
  have rightSize : right.length =
      before'.length + ((new (s :: more)).length + (post.length + rest'.length)) := by
    rw [rightCut,length_append,length_append,length_append]
  have oldLow : s.common.length ≤ (old (s :: more)).length := by
    rw [old_cons,length_append]
    omega
  have newLow : s.common.length ≤ (new (s :: more)).length := by
    rw [new_cons,length_append]
    omega
  have edges : (before.length + 1 = 1 ∧ before'.length + 1 = 1 ∨ c ≤ s.common.length) ∧
      (rest.length = 0 ∧ rest'.length = 0 ∨ c ≤ post.length) := by
    refine ⟨lead.imp_left ?_,trail.imp_left ?_⟩
    · intro empty
      rw [empty.1,empty.2]
      exact ⟨rfl,rfl⟩
    · intro empty
      rw [empty.1,empty.2]
      exact ⟨rfl,rfl⟩
  have leftBound : bound c (before.length + 1 + s.common.length : Nat) last.lend 1 (left.length + 1) =
      .ok (before.length + 1 + s.skip c, (old (s.clip c :: more)).length + (post.take c).length) := by
    rw [lend,bound_block (q := (post.take c).length) (by omega) (by omega) leftFits (by omega)
      (by omega) (by omega)
      (by omega)]
    unfold Seg.skip at *
    congr 2
    omega
  have rightBound : bound c (before'.length + 1 + s.common.length : Nat) last.rend 1
    (right.length + 1) =
      .ok (before'.length + 1 + s.skip c, (new (s.clip c :: more)).length + (post.take c).length) :=
        by
    rw [rend,bound_block (q := (post.take c).length) (by omega) (by omega) rightFits (by omega)
      (by omega) (by omega)
      (by omega)]
    unfold Seg.skip at *
    congr 2
    omega
  -- the block starts behind the lines that are skipped
  have body : blockBody left right
      { lstart := before.length + 1 + s.skip c
        llen := (old (s.clip c :: more)).length + (post.take c).length
        rstart := before'.length + 1 + s.skip c
        rlen := (new (s.clip c :: more)).length + (post.take c).length }
      none (hunksOf (before.length + 1) (before'.length + 1) (s :: more)) =
        .ok (printEntries (bodyOf c (s.clip c :: more) post)) := by
    have taken' : (s.common.take (s.skip c)).length = s.skip c := by
      rw [length_take]
      omega
    have leftPlace : (before ++ s.common.take (s.skip c)).length + 1 =
        before.length + 1 + s.skip c := by
      rw [length_append,taken']
      omega
    have rightPlace : (before' ++ s.common.take (s.skip c)).length + 1 =
        before'.length + 1 + s.skip c := by
      rw [length_append,taken']
      omega
    have leftAt : left = (before ++ s.common.take (s.skip c)) ++
        (old (s.clip c :: more) ++ (post.take c ++ (post.drop c ++ rest))) := by
      rw [← append_assoc (post.take c),take_append_drop,append_assoc,← append_assoc (s.common.take _),
        ← old_clip,leftCut]
    have rightAt : right = (before' ++ s.common.take (s.skip c)) ++
        (new (s.clip c :: more) ++ (post.take c ++ (post.drop c ++ rest'))) := by
      rw [← append_assoc (post.take c),take_append_drop,append_assoc,← append_assoc (s.common.take _),
        ← new_clip,rightCut]
    rw [← hunksOf_clip c,← leftPlace,← rightPlace]
    refine blockBody_segs leftAt rightAt rfl ?_ ?_
    · exact (Nat.add_assoc _ _ _).symm
    · exact (Nat.add_assoc _ _ _).symm
  unfold printUBlock
  rw [lastAt]
  change (bound c (before.length + 1 + s.common.length : Nat) last.lend 1 (1 + left.length)).bind
    _ = _
  rw [Nat.add_comm 1,leftBound]
  change (bound c (before'.length + 1 + s.common.length : Nat) last.rend 1 (1 + right.length)).bind
    _ = _
  rw [Nat.add_comm 1,rightBound]
  change (blockBody left right _ none _).map _ = _
  rw [body]
  unfold blockText
  rw [blockOf_firstChange more post (by omega) changed]
  rfl

theorem unifiedLoop_blocks {tail : List Bytes} (before before' : List Bytes) (s : Seg)
    (more : List Seg) {rest : List Seg}
    (leftCut : left = before ++ (old (s :: more) ++ (old rest ++ tail)))
    (rightCut : right = before' ++ (new (s :: more) ++ (new rest ++ tail)))
    (changed : ∀ seg ∈ s :: rest, 0 < seg.dels.length + seg.adds.length)
    (lead : (before = [] ∧ before' = []) ∨ c ≤ s.common.length)
    (fitsL : left.length + 2 * c < 2147483647) (fitsR : right.length + 2 * c < 2147483647) :
    unifiedLoop left right c fn_defs
      { lstart := 1, llen := left.length, rstart := 1, rlen := right.length }
        (hunksOf (before.length + 1 + (old (s :: more)).length)
    (before'.length + 1 + (new (s :: more)).length) rest)
        (hunksOf (before.length + 1) (before'.length + 1) (s :: more))
        ((before.length + 1 + (old (s :: more)).length : Nat) + c) =
      .ok ((blocksOf c tail (before.length + 1) (before'.length + 1) s more rest).flatMap
        (blockText fn_defs)) := by
  induction rest generalizing before before' s more with
  | nil =>
    have leftSize := congrArg length leftCut
    have rightSize := congrArg length rightCut
    simp only [length_append] at leftSize rightSize
    have whole : left = before ++ (old (s :: more) ++ (tail ++ [])) := by
      rw [leftCut,append_nil]
      rfl
    have whole' : right = before' ++ (new (s :: more) ++ (tail ++ [])) := by
      rw [rightCut,append_nil]
      rfl
    have block := printUBlock_block fn_defs whole whole' (changed s mem_cons_self) lead
      (.inl ⟨rfl,rfl⟩)
      (by omega) (by omega)
    unfold hunksOf unifiedLoop blocksOf
    rwa [if_pos (cons_ne_nil _ _),flatMap_singleton]
  | cons next rest ih =>
    have later := (forall_mem_cons.mp changed).2
    have leftSize := congrArg length leftCut
    have rightSize := congrArg length rightCut
    simp only [old_cons next,new_cons next,length_append] at leftSize rightSize
    conv_lhs =>
      arg 6
      unfold hunksOf
    unfold unifiedLoop
    dsimp only [Hunk.lend]
    rw [cint_ok (by omega) (by omega),Except.bind,cint_ok (by omega) (by omega),Except.bind,
      cint_ok (by omega) (by omega),Except.bind]
    have gapIff : (1 : Int) <
      ((before.length + 1 + (old (s :: more)).length + next.common.length : Nat) - c -
        ((before.length + 1 + (old (s :: more)).length : Nat) + c)) ↔
          2 * c + 1 < next.common.length := by omega
    have full : hunksOf (before.length + 1) (before'.length + 1) (s :: more) ≠ [] := cons_ne_nil _ _
    unfold blocksOf
    by_cases wide : 2 * c + 1 < next.common.length
    · have leftAt : left =
          before ++ (old (s :: more) ++ (next.common ++ (next.dels ++ (old rest ++ tail)))) := by
        rw [leftCut,old_cons next,append_assoc,append_assoc]
      have rightAt : right =
          before' ++ (new (s :: more) ++ (next.common ++ (next.adds ++ (new rest ++ tail)))) := by
        rw [rightCut,new_cons next,append_assoc,append_assoc]
      have block := printUBlock_block fn_defs leftAt rightAt (changed s mem_cons_self) lead
        (.inr (by omega))
        (by omega) (by omega)
      have leftPlace : (before ++ old (s :: more)).length + 1 =
          before.length + 1 + (old (s :: more)).length := by
        rw [length_append]
        omega
      have rightPlace : (before' ++ new (s :: more)).length + 1 =
          before'.length + 1 + (new (s :: more)).length := by
        rw [length_append]
        omega
      have others := ih (before ++ old (s :: more)) (before' ++ new (s :: more)) next []
        (by rw [leftCut,old_cons next,old_single]; simp only [append_assoc])
        (by rw [rightCut,new_cons next,new_single]; simp only [append_assoc]) later (.inr (by omega))
      rw [leftPlace,rightPlace,old_single,new_single,length_append,length_append,← Nat.add_assoc,
        ← Nat.add_assoc] at others
      rw [if_pos ⟨gapIff.mpr wide,full⟩,if_pos wide,block,Except.bind,flatMap_cons]
      change (unifiedLoop left right c fn_defs _ _ (hunksOf _ _ [next]) _).map _ = _
      rw [others]
      rfl
    · have joined := ih before before' s (more ++ [next])
        (by rw [leftCut,← cons_append,old_concat,old_cons next]; simp only [append_assoc])
        (by rw [rightCut,← cons_append,new_concat,new_cons next]; simp only [append_assoc])
        (forall_mem_cons.mpr ⟨changed s mem_cons_self,(forall_mem_cons.mp later).2⟩) lead
      rw [← cons_append,old_concat,new_concat,hunksOf_append,length_append,length_append,
        length_append,length_append] at joined
      rw [if_neg fun both => wide (gapIff.mp both.1), if_neg wide]
      simp only [← Nat.add_assoc] at joined ⊢
      exact joined

end BitKeeper.Ndiff
