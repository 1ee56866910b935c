import BitKeeper.Ndiff.Blocks

/-!
The RCS script as its reader gets it. The lines that are appended are counted, so only the very last
one of the script may be without a newline.
-/

namespace BitKeeper.Ndiff

open List Bytes Libdiff Option

def commandsOf : Nat → List Seg → List Command
  | _, [] => []
  | x, s :: rest =>
    (if s.dels = [] then [] else [.delete (x + s.common.length) s.dels.length]) ++
      ((if s.adds = [] then [] else [.append (x + s.common.length + s.dels.length - 1) s.adds]) ++
        commandsOf (x + s.common.length + s.dels.length) rest)

def commandLines : Command → List Bytes
  | .delete line count => [command 100 line count]
  | .append line text => command 97 line text.length :: text

private theorem printHunk_rcs {lines before mid rest : List Bytes} {start : Nat}
    (cut : lines = before ++ (mid ++ rest)) (place : start = before.length + 1) :
    printHunk [] start mid.length lines false = mid.flatten := by
  rw [printHunk_mid [] false cut place,flatten_eq_flatMap]
  refine flatMap_congr fun line _ => ?_
  unfold printLine
  rw [if_neg fun warn => absurd warn.1 Bool.false_ne_true, append_nil,nil_append]
  rfl

variable {segs : List Seg}

theorem printRCS_commands {right tail : List Bytes} (before' : List Bytes) (x : Nat)
    (rightCut : right = before' ++ (new segs ++ tail)) :
    printRCS right (hunksOf x (before'.length + 1) segs) =
      ((commandsOf x segs).flatMap commandLines).flatten := by
  induction segs generalizing x before' with
  | nil => rfl
  | cons s segs ih =>
    rw [new_cons,append_assoc,append_assoc] at rightCut
    have adds : printHunk [] (before'.length + 1 + s.common.length) s.adds.length right false =
        s.adds.flatten :=
      printHunk_rcs (rightCut.trans (append_assoc before' s.common _).symm)
        (by rw [length_append]; omega)
    have place : (before' ++ (s.common ++ s.adds)).length + 1 =
        before'.length + 1 + s.common.length + s.adds.length := by
      rw [length_append,length_append]
      omega
    have later := ih (before' ++ (s.common ++ s.adds)) (x + s.common.length + s.dels.length)
      (by rw [rightCut,append_assoc,append_assoc])
    rw [place] at later
    have dels : (if s.dels.length ≠ 0 then command 100 (x + s.common.length) s.dels.length else []) =
        ((if s.dels = [] then [] else [Command.delete (x + s.common.length) s.dels.length]).flatMap
          commandLines).flatten := by
      cases s.dels with
      | nil => rfl
      | cons line lines => exact (append_nil _).symm
    have added : (if s.adds.length ≠ 0 then command 97 (x + s.common.length + s.dels.length - 1)
      s.adds.length ++
          s.adds.flatten else []) =
        ((if s.adds = [] then [] else
          [Command.append (x + s.common.length + s.dels.length - 1) s.adds]).flatMap
          commandLines).flatten := by
      cases s.adds with
      | nil => rfl
      | cons line lines =>
        rw [if_pos (show (line :: lines).length ≠ 0 from Nat.succ_ne_zero _),
          if_neg (cons_ne_nil _ _),flatMap_singleton]
        rfl
    unfold printRCS at later ⊢
    unfold hunksOf commandsOf
    rw [flatMap_cons,later,flatMap_append,flatMap_append,flatten_append,flatten_append,
      ← dels,← added,← adds,append_assoc]
    rfl

theorem command_ended {letter : UInt8} (other : newline ≠ letter) (line count : Nat) :
    Ended (command letter line count) := by
  have plain : newline ∉ letter :: (decimal line ++ (32 :: decimal count)) := by
    rw [mem_cons,mem_append,mem_cons,not_or,not_or,not_or]
    exact ⟨other,decimal_plain line,by decide,decimal_plain count⟩
  have ended := ended_concat plain
  rwa [cons_append,append_assoc,cons_append] at ended

theorem commands_lined (x : Nat) {tail : List Bytes} (lined : Lined (new segs ++ tail))
    (commons : ∀ s ∈ segs.tail, s.common ≠ []) : Lined ((commandsOf x segs).flatMap commandLines) :=
  by
  induction segs generalizing x with
  | nil => exact .nil
  | cons s segs ih =>
    rw [new_cons,append_assoc,append_assoc] at lined
    have behind := lined.behind
    have later := ih (x + s.common.length + s.dels.length) behind.behind fun seg inside =>
      commons seg (mem_of_mem_tail inside)
    have adds : Lined (s.adds ++ (commandsOf (x + s.common.length + s.dels.length) segs).flatMap
        commandLines) := by
      cases segs with
      | nil =>
        change Lined (s.adds ++ [])
        rw [append_nil]
        exact behind.before
      | cons next segs =>
        have filled : new (next :: segs) ++ tail ≠ [] := by
          intro empty
          have first := (append_eq_nil_iff.mp empty).1
          rw [new_cons] at first
          exact commons next mem_cons_self (append_eq_nil_iff.mp first).1
        exact .append (behind.ended filled) later
    have appended : Lined
      ((if s.adds = [] then [] else [Command.append (x + s.common.length + s.dels.length - 1)
        s.adds]).flatMap commandLines ++
          (commandsOf (x + s.common.length + s.dels.length) segs).flatMap commandLines) := by
      by_cases none_ : s.adds = []
      · rwa [if_pos none_]
      · rw [if_neg none_,flatMap_singleton]
        exact .cons (command_ended (by decide) _ _) adds
    unfold commandsOf
    rw [flatMap_append,flatMap_append]
    by_cases none_ : s.dels = []
    · rwa [if_pos none_]
    · rw [if_neg none_,flatMap_singleton]
      exact .cons (command_ended (by decide) _ _) appended

theorem readCommand_command (letter : UInt8) (line count : Nat) :
    readCommand (command letter line count) = some (letter, line, count) := by
  have blank : ∀ c ∈ (32 :: (decimal count ++ [newline]) : Bytes).head?, isDigit c = false := by
    intro c at_
    rw [← some.inj at_]
    rfl
  have stop : ∀ c ∈ ([newline] : Bytes).head?, isDigit c = false := by
    intro c at_
    rw [← some.inj at_]
    rfl
  have text : expect [32] (32 :: (decimal count ++ [newline])) = some (decimal count ++ [newline]) :=
    expect_append [32] _
  unfold readCommand command
  rw [head?_cons,bind_some,tail_cons,readDecimal_decimal line blank,bind_some,text,
    bind_some,readDecimal_decimal count stop,bind_some,if_pos rfl]

theorem readCommands_text (text rest : List Bytes) : readCommands (text ++ rest) text.length =
    (readCommands rest 0).map fun read => (text ++ read.1, read.2) := by
  induction text with
  | nil =>
    change readCommands rest 0 = _
    cases readCommands rest 0 <;> rfl
  | cons line text ih =>
    change (readCommands (text ++ rest) text.length).map _ = _
    rw [ih]
    cases readCommands rest 0 <;> rfl

theorem readCommands_commands (commands : List Command) :
    readCommands (commands.flatMap commandLines) 0 = some ([], commands) := by
  induction commands with
  | nil => rfl
  | cons first commands ih =>
    rw [flatMap_cons]
    cases first with
    | delete line count =>
      change ((readCommand (command 100 line count)).bind _) = _
      rw [readCommand_command,bind_some,if_pos rfl]
      change (readCommands (commands.flatMap commandLines) 0).map _ = _
      rw [ih]
      rfl
    | append line text =>
      change ((readCommand (command 97 line text.length)).bind _) = _
      rw [readCommand_command,bind_some,if_neg (show (97 : UInt8) ≠ 100 by decide),if_pos rfl]
      change (readCommands (text ++ _) text.length).map _ = _
      rw [readCommands_text,ih]
      change some ([], Command.append line (text ++ []) :: commands) = _
      rw [append_nil]

variable {x : Nat}

private theorem applyRCS_seg (first : 1 ≤ x) {s : Seg} (changed : 0 < s.dels.length + s.adds.length)
    (commands : List Command) (rest : List Bytes) :
    applyRCS x ((if s.dels = [] then [] else [.delete (x + s.common.length) s.dels.length]) ++
        ((if s.adds = [] then [] else [.append (x + s.common.length + s.dels.length - 1) s.adds]) ++
      commands))
        (s.common ++ (s.dels ++ rest)) =
      (applyRCS (x + s.common.length + s.dels.length) commands rest).map fun later =>
        s.common ++ (s.adds ++ later) := by
  -- an append behind the deleted lines
  have append : ∀ (text : List Bytes), applyRCS (x + s.common.length + s.dels.length)
      (.append (x + s.common.length + s.dels.length - 1) text :: commands) rest =
        (applyRCS (x + s.common.length + s.dels.length) commands rest).map fun later =>
          text ++ later := by
    intro text
    conv_lhs => unfold applyRCS
    rw [show x + s.common.length + s.dels.length - 1 + 1 =
      x + s.common.length + s.dels.length by omega,Nat.sub_self,if_pos ⟨le_rfl,Nat.zero_le _⟩]
    rfl
  by_cases none_ : s.dels = []
  · rw [none_,length_nil,Nat.zero_add] at changed
    have some_ : s.adds ≠ [] := ne_nil_of_length_pos changed
    rw [if_pos none_,if_neg some_,none_]
    change applyRCS x (.append (x + s.common.length + 0 - 1) s.adds :: commands)
      (s.common ++ rest) = _
    conv_lhs => unfold applyRCS
    rw [show x + s.common.length + 0 - 1 + 1 = x + s.common.length by omega,Nat.add_sub_cancel_left,
      drop_left,take_left,if_pos ⟨by omega,by rw [length_append]; omega⟩]
    rfl
  have removed : ∀ more : List Command,
    applyRCS x (.delete (x + s.common.length) s.dels.length :: more)
      (s.common ++ (s.dels ++ rest)) = (applyRCS (x + s.common.length + s.dels.length) more rest).map
        (s.common ++ ·) := by
    intro more
    conv_lhs => unfold applyRCS
    rw [Nat.add_sub_cancel_left,if_pos ⟨by omega,by rw [length_append,length_append]; omega⟩,
      take_left,← drop_drop,drop_left,drop_left]
  rw [if_neg none_]
  change applyRCS x (.delete _ _ :: _) _ = _
  rw [removed]
  split
  next alone =>
    rw [alone]
    rfl
  · change (applyRCS _ (.append _ s.adds :: commands) rest).map _ = _
    rw [append,Option.map_map]
    rfl

theorem applyRCS_commands (first : 1 ≤ x) (changed : ∀ s ∈ segs, 0 < s.dels.length + s.adds.length)
    (tail : List Bytes) :
    applyRCS x (commandsOf x segs) (old segs ++ tail) = some (new segs ++ tail) := by
  induction segs generalizing x with
  | nil => rfl
  | cons s segs ih =>
    obtain ⟨here,later⟩ := forall_mem_cons.mp changed
    rw [old_cons,new_cons]
    simp only [append_assoc]
    unfold commandsOf
    rw [applyRCS_seg first here,ih (by omega) later]
    rfl

theorem commandsOf_line (first : 1 ≤ x) (commons : ∀ s ∈ segs, s.common ≠ []) :
    ∀ command ∈ commandsOf x segs, x ≤ command.line := by
  induction segs generalizing x with
  | nil => exact nofun
  | cons s segs ih =>
    obtain ⟨here,later⟩ := forall_mem_cons.mp commons
    have filled := length_pos_iff.mpr here
    intro command inside
    rcases mem_append.mp inside with deleted | inside
    · split at deleted
      · cases deleted
      · rw [mem_singleton.mp deleted]
        exact Nat.le_add_right _ _
    · rcases mem_append.mp inside with added | inside
      · split at added
        · cases added
        · rw [mem_singleton.mp added]
          change x ≤ x + s.common.length + s.dels.length - 1
          omega
      · have above := ih (by omega) later command inside
        omega

theorem commandsOf_ordered (first : 1 ≤ x) (commons : ∀ s ∈ segs.tail, s.common ≠ []) :
    (commandsOf x segs).Pairwise Command.Before := by
  induction segs generalizing x with
  | nil => exact .nil
  | cons s segs ih =>
    have later := ih (x := x + s.common.length + s.dels.length) (by omega) fun seg inside =>
      commons seg (mem_of_mem_tail inside)
    have above := commandsOf_line (x := x + s.common.length + s.dels.length) (by omega) commons
    have appended :
      ((if s.adds = [] then [] else
      [Command.append (x + s.common.length + s.dels.length - 1) s.adds]) ++
        commandsOf (x + s.common.length + s.dels.length) segs).Pairwise Command.Before := by
      by_cases none_ : s.adds = []
      · rwa [if_pos none_]
      · rw [if_neg none_]
        refine .cons (fun command inside => .inl ?_) later
        have high := above command inside
        change x + s.common.length + s.dels.length - 1 < command.line
        omega
    unfold commandsOf
    by_cases none_ : s.dels = []
    · rwa [if_pos none_]
    have filled := length_pos_iff.mpr none_
    rw [if_neg none_,singleton_append]
    refine .cons (fun command inside => ?_) appended
    rcases mem_append.mp inside with added | behind
    · split at added
      · cases added
      rw [mem_singleton.mp added]
      by_cases one : s.dels.length = 1
      · refine .inr ⟨x + s.common.length,s.adds,by rw [one],?_⟩
        rw [one]
        rfl
      · refine .inl ?_
        change x + s.common.length < x + s.common.length + s.dels.length - 1
        omega
    · have high := above command behind
      refine .inl ?_
      change x + s.common.length < command.line
      omega

end BitKeeper.Ndiff
