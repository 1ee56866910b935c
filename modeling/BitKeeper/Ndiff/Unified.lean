import BitKeeper.Ndiff.Blocks

/-!
The unified diff as its reader gets it: the blocks are read back as they are, they are in order, and
applying them to the old lines gives the new ones.
-/

namespace BitKeeper.Ndiff

open List Bytes Libdiff Option

variable {c : Nat} {s : Seg}

theorem printUnified_blocks (fn_defs : List (Nat × Bytes)) (tail : List Bytes) {rest : List Seg}
    (changed : ∀ seg ∈ s :: rest, 0 < seg.dels.length + seg.adds.length)
    (fitsL : (old (s :: rest) ++ tail).length + 2 * c < 2147483647)
    (fitsR : (new (s :: rest) ++ tail).length + 2 * c < 2147483647) :
    printUnified (old (s :: rest) ++ tail) (new (s :: rest) ++ tail) c fn_defs
        { lstart := 1, llen := (old (s :: rest) ++ tail).length
          rstart := 1, rlen := (new (s :: rest) ++ tail).length }
        (hunksOf 1 1 (s :: rest)) =
      .ok ((blocksOf c tail 1 1 s [] rest).flatMap (blockText fn_defs)) := by
  have loop := unifiedLoop_blocks fn_defs [] [] s [] (c := c)
    (show old (s :: rest) ++ tail = [] ++ (old [s] ++ (old rest ++ tail)) by
      rw [old_cons,old_single,nil_append]
      simp only [append_assoc])
    (show new (s :: rest) ++ tail = [] ++ (new [s] ++ (new rest ++ tail)) by
      rw [new_cons,new_single,nil_append]
      simp only [append_assoc])
    changed (.inl ⟨rfl,rfl⟩) fitsL fitsR
  have oldOne : (old [s]).length = s.common.length + s.dels.length := by rw [old_single,length_append]
  have newOne : (new [s]).length = s.common.length + s.adds.length := by rw [new_single,length_append]
  rw [oldOne,newOne,← Nat.add_assoc,← Nat.add_assoc] at loop
  rw [old_cons,length_append,length_append,length_append] at fitsL
  unfold printUnified
  conv_lhs =>
    arg 6
    unfold hunksOf
  unfold unifiedLoop
  dsimp only [Hunk.lend]
  rw [cint_ok (by omega) (by omega),Except.bind,cint_ok (by omega) (by omega),Except.bind,
    cint_ok (by omega) (by omega),Except.bind,if_neg fun both => both.2 rfl]
  exact loop

theorem readSpan_spanText (num count : Nat) {rest : Bytes}
    (stops : ∀ d ∈ rest.head?, isDigit d = false ∧ d ≠ 44) :
    readSpan (spanText num count ++ rest) = some ((num, count), rest) := by
  have open_ : ∀ d ∈ rest.head?, isDigit d = false := fun d at_ => (stops d at_).1
  unfold spanText readSpan
  by_cases one : count = 1
  · rw [if_neg (not_not.mpr one),append_nil,readDecimal_decimal num open_,one]
    exact if_neg fun comma => (stops 44 comma).2 rfl
  rw [if_pos one,append_assoc,cons_append,readDecimal_decimal num (by
    intro d at_
    rw [← some.inj at_]
    rfl)]
  dsimp only
  rw [head?_cons,if_pos rfl,tail_cons,readDecimal_decimal count open_]
  rfl

theorem readHeader_headerLine (b : Block) (name : Bytes) :
    readHeader (headerLine b name) = some ((b.lnum, b.lcount), (b.rnum, b.rcount)) := by
  have blank : ∀ rest : Bytes, ∀ d ∈ (32 :: rest : Bytes).head?, isDigit d = false ∧ d ≠ 44 := by
    intro rest d at_
    rw [← some.inj at_]
    decide
  have left : readSpan (spanText b.lnum b.lcount ++ ([32,43] ++ (spanText b.rnum b.rcount ++
      ([32,64,64] ++ (name ++ [newline]))))) = some ((b.lnum, b.lcount), _) := readSpan_spanText _ _
        (blank _)
  have right : readSpan (spanText b.rnum b.rcount ++ ([32,64,64] ++ (name ++ [newline]))) =
      some ((b.rnum, b.rcount), _) := readSpan_spanText _ _ (blank _)
  unfold readHeader headerLine
  rw [expect_append,bind_some,left,bind_some,expect_append,bind_some,right,
    bind_some,expect_append]
  rfl

def printedAs (line : Bytes) : List Bytes :=
  if line.getLast? = some newline then [line] else [line ++ [newline],noNewline]

private theorem noNewline_ended : Ended noNewline := ⟨by decide,by decide⟩

theorem lines_printed {list : List Bytes} (whole : ∀ line ∈ list, Ended line ∨ Unended line) :
    lines (list.flatMap (printLine [] true)) = list.flatMap printedAs := by
  induction list with
  | nil => rfl
  | cons line list ih =>
    obtain ⟨first,later⟩ := forall_mem_cons.mp whole
    rw [flatMap_cons,flatMap_cons,← ih later]
    unfold printLine printedAs
    rw [nil_append]
    rcases first with ended | unended
    · rw [if_neg fun open_ => open_.2 ended.last, if_pos ended.last,append_nil,lines_ended ended]
      rfl
    · rw [if_pos ⟨rfl,unended.last⟩,if_neg unended.last,← singleton_append,← append_assoc,
        append_assoc,lines_ended (ended_concat unended.none_),lines_ended noNewline_ended]
      rfl

theorem joinMarks_cons {line : Bytes} {rest more : List Bytes} (joined : joinMarks rest = more)
    (plain : ∀ next ∈ more, isMark next = false) : joinMarks (line :: rest) = line :: more := by
  unfold joinMarks
  rw [joined]
  cases more with
  | nil => rfl
  | cons next more =>
    dsimp only
    rw [plain next mem_cons_self]
    rfl

theorem joinMarks_printed {list : List Bytes} (plain : ∀ line ∈ list, isMark line = false) :
    joinMarks (list.flatMap printedAs) = list := by
  induction list with
  | nil => rfl
  | cons line list ih =>
    obtain ⟨_,later⟩ := forall_mem_cons.mp plain
    have rest := ih later
    rw [flatMap_cons]
    unfold printedAs
    by_cases ends : line.getLast? = some newline
    · rw [if_pos ends]
      exact joinMarks_cons rest later
    have marked : joinMarks (noNewline :: list.flatMap printedAs) = noNewline :: list :=
      joinMarks_cons rest later
    rw [if_neg ends]
    change joinMarks ((line ++ [newline]) :: noNewline :: list.flatMap printedAs) = line :: list
    unfold joinMarks
    rw [marked]
    dsimp only
    rw [show isMark noNewline = true from rfl,if_pos rfl,dropLast_concat]

private theorem readTag_mark (tag : Tag) : readTag tag.mark = some tag := by cases tag <;> rfl

private theorem readBlocks_body (body : List (Tag × Bytes)) (rest : List Bytes) :
    readBlocks (body.map entryLine ++ rest) (body.map fun entry => entry.1.old).sum
        (body.map fun entry => entry.1.new).sum =
      (readBlocks rest 0 0).map fun read => (body ++ read.1, read.2) := by
  induction body with
  | nil =>
    change readBlocks rest 0 0 = _
    cases readBlocks rest 0 0 <;> rfl
  | cons entry body ih =>
    have counts : ¬ (entry.1.old + (body.map fun entry => entry.1.old).sum = 0 ∧
        entry.1.new + (body.map fun entry => entry.1.new).sum = 0) := by
      obtain ⟨tag,line⟩ := entry
      cases tag <;> simp [Tag.old,Tag.new]
    rw [map_cons,map_cons,map_cons,sum_cons,sum_cons,cons_append]
    conv_lhs => unfold readBlocks
    rw [if_neg counts]
    change ((readTag entry.1.mark).bind _) = _
    rw [readTag_mark,bind_some,if_pos ⟨Nat.le_add_right _ _,Nat.le_add_right _ _⟩,
      Nat.add_sub_cancel_left,Nat.add_sub_cancel_left,ih]
    cases readBlocks rest 0 0 <;> rfl

structure Readable (b : Block) : Prop where
  lcount : b.lcount = (b.body.map fun entry => entry.1.old).sum
  rcount : b.rcount = (b.body.map fun entry => entry.1.new).sum
  lines : ∀ entry ∈ b.body, Ended entry.2 ∨ Unended entry.2

def diffLinesOf (names : Block → Bytes) (blocks : List Block) : List Bytes :=
  blocks.flatMap fun b => headerLine b (names b) :: b.body.map entryLine

variable {blocks : List Block}

theorem readBlocks_blocks (names : Block → Bytes) (readable : ∀ b ∈ blocks, Readable b) :
    readBlocks (diffLinesOf names blocks) 0 0 = some ([], blocks) := by
  induction blocks with
  | nil => rfl
  | cons b blocks ih =>
    obtain ⟨first,later⟩ := forall_mem_cons.mp readable
    have rest := ih later
    unfold diffLinesOf at rest ⊢
    rw [flatMap_cons,cons_append]
    conv_lhs => unfold readBlocks
    rw [if_pos ⟨rfl,rfl⟩,readHeader_headerLine,bind_some,first.lcount,first.rcount,
      readBlocks_body,rest]
    change some ([], Block.mk _ _ _ _ (b.body ++ []) :: blocks) = _
    rw [append_nil,← first.lcount,← first.rcount]

private theorem printLine_entry {entry : Tag × Bytes} (whole : Ended entry.2 ∨ Unended entry.2) :
    printLine [] true (entryLine entry) = printLine [entry.1.mark] true entry.2 := by
  have filled : entry.2 ≠ [] := by
    rcases whole with ended | unended
    · intro empty
      have last := ended.last
      rw [empty] at last
      cases last
    · exact unended.filled
  have last : (entryLine entry).getLast? = entry.2.getLast? := by
    unfold entryLine
    rw [getLast?_cons,getLast?_eq_some_getLast filled]
    rfl
  unfold printLine
  rw [last]
  rfl

theorem mark_ne_newline (tag : Tag) : newline ≠ tag.mark := by cases tag <;> decide

theorem entryLine_whole {entry : Tag × Bytes} (whole : Ended entry.2 ∨ Unended entry.2) :
    Ended (entryLine entry) ∨ Unended (entryLine entry) := by
  have other : newline ≠ entry.1.mark := mark_ne_newline entry.1
  rcases whole with ended | unended
  · have split := ended.split
    have plain : newline ∉ entry.1.mark :: entry.2.dropLast := fun inside =>
      (mem_cons.mp inside).elim other ended.once
    have concat := ended_concat plain
    rw [cons_append,← split] at concat
    exact .inl concat
  · exact .inr ⟨cons_ne_nil _ _,fun inside => (mem_cons.mp inside).elim other unended.none_⟩

theorem spanText_plain (num count : Nat) : newline ∉ spanText num count := by
  unfold spanText
  rw [mem_append,not_or]
  refine ⟨decimal_plain num,?_⟩
  by_cases one : count = 1
  · rw [if_neg (not_not.mpr one)]
    exact not_mem_nil
  · rw [if_pos one]
    exact fun inside => (mem_cons.mp inside).elim (by decide) (decimal_plain count)

theorem headerLine_ended (b : Block) {name : Bytes} (plain : newline ∉ name) :
    Ended (headerLine b name) := by
  have body : newline ∉ [64,64,32,45] ++
    (spanText b.lnum b.lcount ++ ([32,43] ++ (spanText b.rnum b.rcount ++
      ([32,64,64] ++ name)))) := by
    simp only [mem_append,not_or]
    exact ⟨by decide,spanText_plain _ _,by decide,spanText_plain _ _,by decide,plain⟩
  have ended := ended_concat body
  simp only [append_assoc] at ended
  exact ended

theorem readUnified_blocks (fn_defs : List (Nat × Bytes)) (readable : ∀ b ∈ blocks, Readable b)
    (plain : ∀ b ∈ blocks, newline ∉ title fn_defs b.firstChange) :
    readUnified (blocks.flatMap (blockText fn_defs)) = some blocks := by
  have text : blocks.flatMap (blockText fn_defs) =
      (diffLinesOf (fun b => title fn_defs b.firstChange) blocks).flatMap (printLine [] true) := by
    unfold diffLinesOf
    rw [flatMap_assoc]
    refine flatMap_congr fun b inside => ?_
    have header := headerLine_ended b (plain b inside)
    rw [flatMap_cons,flatMap_map]
    unfold blockText printEntries
    congr 1
    · unfold printLine
      rw [if_neg fun open_ => open_.2 header.last, append_nil,nil_append]
    · exact flatMap_congr fun entry listed =>
        (printLine_entry ((readable b inside).lines entry listed)).symm
  have each : ∀ line ∈ diffLinesOf (fun b => title fn_defs b.firstChange) blocks,
      (Ended line ∨ Unended line) ∧ isMark line = false := by
    intro line inside
    obtain ⟨b,listed,place⟩ := mem_flatMap.mp inside
    rcases mem_cons.mp place with rfl | below
    · exact ⟨.inl (headerLine_ended b (plain b listed)),rfl⟩
    · obtain ⟨entry,inBody,rfl⟩ := mem_map.mp below
      refine ⟨entryLine_whole ((readable b listed).lines entry inBody),?_⟩
      obtain ⟨tag,line⟩ := entry
      cases tag <;> rfl
  unfold readUnified
  rw [text,lines_printed fun line inside => (each line inside).1,
    joinMarks_printed fun line inside => (each line inside).2,readBlocks_blocks _ readable]
  rfl

theorem applyBody_context (lines : List Bytes) (body : List (Tag × Bytes)) (rest : List Bytes) :
    applyBody (inContext lines ++ body) (lines ++ rest) =
      (applyBody body rest).map fun done => (lines ++ done.1, done.2) := by
  induction lines with
  | nil =>
    change applyBody body rest = _
    cases applyBody body rest <;> rfl
  | cons line lines ih =>
    change (if line = line then (applyBody (inContext lines ++ body) (lines ++ rest)).map _ else
      none) = _
    rw [if_pos rfl,ih]
    cases applyBody body rest <;> rfl

theorem applyBody_delete (lines : List Bytes) (body : List (Tag × Bytes)) (rest : List Bytes) :
    applyBody (lines.map (fun line => (.delete, line)) ++ body)
    (lines ++ rest) = applyBody body rest := by
  induction lines with
  | nil => rfl
  | cons line lines ih =>
    change (if line = line then applyBody (lines.map _ ++ body) (lines ++ rest) else none) = _
    rw [if_pos rfl,ih]

theorem applyBody_insert (lines : List Bytes) (body : List (Tag × Bytes)) (rest : List Bytes) :
    applyBody (lines.map (fun line => (.insert, line)) ++ body) rest =
      (applyBody body rest).map fun done => (lines ++ done.1, done.2) := by
  induction lines with
  | nil =>
    change applyBody body rest = _
    cases applyBody body rest <;> rfl
  | cons line lines ih =>
    change (applyBody (lines.map _ ++ body) rest).map _ = _
    rw [ih]
    cases applyBody body rest <;> rfl

private theorem applyBody_segs (segs : List Seg) (post rest : List Bytes) :
    applyBody (segs.flatMap entries ++ inContext post) (old segs ++ (post ++ rest)) =
      some (new segs ++ post, rest) := by
  induction segs with
  | nil =>
    have whole := applyBody_context post [] rest
    rw [append_nil] at whole
    change applyBody (inContext post) (post ++ rest) = some (post, rest)
    rw [whole]
    change some (post ++ [], rest) = _
    rw [append_nil]
  | cons s segs ih =>
    have cut : entries s ++ (segs.flatMap entries ++ inContext post) = inContext s.common ++
        (s.dels.map (fun line => (.delete, line)) ++ (s.adds.map (fun line => (.insert, line)) ++
          (segs.flatMap entries ++ inContext post))) := by
      rw [← append_assoc (s.dels.map _),← append_assoc (inContext _)]
      rfl
    rw [flatMap_cons,append_assoc,cut,old_cons,new_cons,append_assoc,append_assoc,
      applyBody_context,applyBody_delete,applyBody_insert,ih]
    change some (s.common ++ (s.adds ++ (new segs ++ post)), rest) = _
    rw [append_assoc,append_assoc]

variable {x : Nat}

theorem blockOf_lend (c y : Nat) (s : Seg) (more : List Seg) (post : List Bytes) (first : 1 ≤ x) :
    (blockOf c x y s more post).lend = x + (old (s :: more)).length + (post.take c).length := by
  have clipped := congrArg List.length (old_clip s c more)
  have skipped := skip_clip s c
  rw [length_append,length_take] at clipped
  unfold Block.lend
  rw [blockOf_lstart more post first]
  change x + s.skip c + ((old (s.clip c :: more)).length + (post.take c).length) = _
  omega

variable {y : Nat}

theorem blockOf_rend (c x : Nat) (s : Seg) (more : List Seg) (post : List Bytes) (first : 1 ≤ y) :
    (blockOf c x y s more post).rend = y + (new (s :: more)).length + (post.take c).length := by
  have clipped := congrArg List.length (new_clip s c more)
  have skipped := skip_clip s c
  rw [length_append,length_take] at clipped
  unfold Block.rend
  rw [blockOf_rstart more post first]
  change y + s.skip c + ((new (s.clip c :: more)).length + (post.take c).length) = _
  omega

theorem applyBlocks_block {j : Nat} (firstL : 1 ≤ x) (firstR : 1 ≤ y) {more : List Seg}
    {post rest later : List Bytes} (copied : j ≤ s.skip c)
    (behind : applyBlocks (x + (old (s :: more)).length + (post.take c).length)
    (y + (new (s :: more)).length + (post.take c).length) blocks (post.drop c ++ rest) =
      some (post.drop c ++ later)) :
    applyBlocks (x + j) (y + j) (blockOf c x y s more post :: blocks)
    ((old (s :: more) ++ (post ++ rest)).drop j) =
      some ((new (s :: more) ++ (post ++ later)).drop j) := by
  have skipped := skip_clip s c
  have front : (s.common.take (s.skip c)).length = s.skip c := by
    rw [length_take]
    omega
  have oldAt : (old (s :: more) ++ (post ++ rest)).drop j = (s.common.take (s.skip c)).drop j ++
      (old (s.clip c :: more) ++ (post.take c ++ (post.drop c ++ rest))) := by
    rw [old_clip s c,append_assoc,drop_append_of_le_length (by omega),← append_assoc (post.take c),
      take_append_drop]
  have newAt : (new (s :: more) ++ (post ++ later)).drop j = (s.common.take (s.skip c)).drop j ++
      (new (s.clip c :: more) ++ (post.take c ++ (post.drop c ++ later))) := by
    rw [new_clip s c,append_assoc,drop_append_of_le_length (by omega),← append_assoc (post.take c),
      take_append_drop]
  have size : ((s.common.take (s.skip c)).drop j).length = s.skip c - j := by rw [length_drop,front]
  have gap : x + s.skip c - (x + j) = s.skip c - j := by omega
  unfold applyBlocks
  rw [blockOf_lstart more post firstL,blockOf_rstart more post firstR,
    blockOf_lend c y s more post firstL,blockOf_rend c x s more post firstR,oldAt,newAt,gap,
    if_pos ⟨by omega,by omega,by rw [length_append]; omega⟩,← size,drop_left,take_left]
  change (applyBody ((s.clip c :: more).flatMap entries ++ inContext (post.take c)) _).bind _ = _
  rw [applyBody_segs,bind_some,behind]
  change some (_ ++ ((new (s.clip c :: more) ++ post.take c) ++ _)) = _
  rw [append_assoc (new _)]

theorem applyBlocks_blocksOf {j : Nat} (firstL : 1 ≤ x) (firstR : 1 ≤ y) (more : List Seg)
    {rest : List Seg} (tail : List Bytes) (copied : j ≤ s.skip c) :
    applyBlocks (x + j) (y + j) (blocksOf c tail x y s more rest)
    ((old (s :: more) ++ (old rest ++ tail)).drop j) =
      some ((new (s :: more) ++ (new rest ++ tail)).drop j) := by
  induction rest generalizing x y j s more with
  | nil =>
    have whole : applyBlocks (x + j) (y + j) [blockOf c x y s more tail]
      ((old (s :: more) ++ (tail ++ [])).drop j) =
        some ((new (s :: more) ++ (tail ++ [])).drop j) := applyBlocks_block firstL firstR copied rfl
    rwa [append_nil] at whole
  | cons next rest ih =>
    unfold blocksOf
    by_cases wide : 2 * c + 1 < next.common.length
    · have few : c ≤ next.common.length := by omega
      have taken : (next.common.take c).length = c := by
        rw [length_take]
        omega
      have behind := ih (x := x + (old (s :: more)).length) (y := y + (new (s :: more)).length)
        (j := c) (s := next)
        (by omega) (by omega) [] (by unfold Seg.skip; omega)
      rw [old_single,new_single,append_assoc,append_assoc,drop_append_of_le_length few,
        drop_append_of_le_length few] at behind
      rw [if_pos wide,old_cons next,new_cons next]
      simp only [append_assoc]
      refine applyBlocks_block firstL firstR copied ?_
      rwa [taken]
    · have joined := ih firstL firstR (more ++ [next]) copied
      rw [← cons_append,old_concat,new_concat] at joined
      rw [if_neg wide,old_cons next,new_cons next]
      simp only [append_assoc] at joined ⊢
      exact joined

end BitKeeper.Ndiff
