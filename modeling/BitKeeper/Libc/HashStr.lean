import BitKeeper.HashMerge.Merge

/-!
A hash as a query string and back. A key or value that ends in one NUL is written without it, any
other with the mark `%FF` behind it; an escaped byte has small letters. The string of an empty hash is
a null pointer.
-/

namespace BitKeeper.Libc.HashStr

open List Bytes Assoc HashMerge

/-- Every byte is encoded but letters, digits and `-_.~/@`. -/
def is_encoded (c : UInt8) : Bool :=
  !(65 ≤ c && c ≤ 90 || 97 ≤ c && c ≤ 122 || 48 ≤ c && c ≤ 57 || [45,95,46,126,47,64].contains c)

def hexDigit (n : UInt8) : UInt8 := if n < 10 then 48 + n else 87 + n

def encodeByte (c : UInt8) : Bytes :=
  if c = 32 then [43] else if is_encoded c then [37,hexDigit (c / 16),hexDigit (c % 16)] else [c]

def webencode : Bytes → Bytes
  | [] => [37,70,70]
  | c :: rest => if rest = [] ∧ c = 0 then [] else encodeByte c ++ webencode rest

/-- What the code asks of `sscanf` with `%2x`: two digits that `%02x` wrote are read back. -/
structure Scanner where
  scan : Bytes → Option UInt8
  pair : ∀ c rest, scan (hexDigit (c / 16) :: hexDigit (c % 16) :: rest) = some c

/-- The loop of `webdecode` with its flag `bin`: the bytes behind `t` and the returned pointer. -/
def decodeLoop (q : Scanner) (bin : Bool) : Bytes → Option (Bytes × Bytes)
  | [] => some (if bin then [] else [0], [])
  | c :: rest =>
    if c = 38 ∨ c = 61 then some (if bin then [] else [0], c :: rest)
    else if c = 43 then (decodeLoop q bin rest).map fun r => (32 :: r.1, r.2)
    else if c = 37 then
      match rest with
      | x :: y :: more =>
        if x = 70 ∧ y = 70 then decodeLoop q true more
        else (q.scan (x :: y :: more)).bind fun b => (decodeLoop q bin more).map fun r =>
          (b :: r.1, r.2)
      -- the code fails here or steps over the end of the string
      | _ => none
    else (decodeLoop q bin rest).map fun r => (c :: r.1, r.2)

def webdecode (q : Scanner) (data : Bytes) : Option (Bytes × Bytes) := decodeLoop q false data

def entry (node : Bytes × Bytes) : Bytes := webencode node.1 ++ 61 :: webencode node.2

def joinLines (sep : Bytes) (lines : List Bytes) : Option Bytes :=
  if lines = [] then none else some (sep.intercalate lines)

def hash_toStr (s : Sorter) (h : Hash) : Option Bytes := joinLines [38] (s.sort (h.nodes.map entry))

/-- The loop of `hash_fromStr`; every turn takes a `=` from the string. -/
def fromLoop (q : Scanner) : Nat → Bytes → Hash → Option Hash
  | 0, p, h => if p = [] then some h else none
  | turns + 1, p, h =>
    if p = [] then some h
    else (webdecode q p).bind fun k =>
      if k.2.head? = some 61 then (webdecode q k.2.tail).bind fun v =>
        if v.2 = [] then some (h.store k.1 v.1)
        else if v.2.head? = some 38 then fromLoop q turns v.2.tail (h.store k.1 v.1) else none
      else none

/-- `hash_fromStr`; it reads through the null pointer it is given for no string. -/
def hash_fromStr (q : Scanner) (h : Hash) (str : Option Bytes) : Option Hash :=
  str.bind fun p => fromLoop q p.length p h

def Stops (tail : Bytes) : Prop := ∀ c ∈ tail.head?, c = 38 ∨ c = 61

variable (q : Scanner) {tail : Bytes}

theorem decodeLoop_stops (bin : Bool) (stops : Stops tail) :
    decodeLoop q bin tail = some (if bin then [] else [0], tail) := by
  cases tail with
  | nil => rw [decodeLoop]
  | cons c rest =>
    unfold decodeLoop
    exact if_pos (stops c rfl)

private theorem hexDigit_ne : ∀ n, hexDigit (n / 16) ≠ 70 := by decide +kernel

theorem decodeLoop_encodeByte (c : UInt8) (tail : Bytes) :
    decodeLoop q false (encodeByte c ++ tail) = (decodeLoop q false tail).map fun r =>
      (c :: r.1, r.2) := by
  unfold encodeByte
  split
  next blank =>
    rw [singleton_append,blank]
    conv_lhs => unfold decodeLoop
    rw [if_neg (by decide),if_pos (by rfl)]
  by_cases coded : is_encoded c = true
  · have apart : ¬(hexDigit (c / 16) = 70 ∧ hexDigit (c % 16) = 70) := fun both =>
      hexDigit_ne c both.1
    rw [if_pos coded]
    simp only [cons_append,nil_append]
    rw [decodeLoop,if_neg (by decide),if_neg (by decide),if_pos rfl]
    simp only [if_neg apart,q.pair,Option.bind_some]
  · have other : ∀ x, is_encoded x = true → c ≠ x := fun x codedX same => coded (same ▸ codedX)
    rw [if_neg coded,singleton_append]
    conv_lhs => unfold decodeLoop
    rw [if_neg (not_or.mpr ⟨other 38 (by decide),other 61 (by decide)⟩),if_neg (other 43 (by decide)),
      if_neg (other 37 (by decide))]

theorem webdecode_webencode (data : Bytes) (stops : Stops tail) :
    webdecode q (webencode data ++ tail) = some (data, tail) := by
  unfold webdecode
  induction data with
  | nil =>
    have bin := decodeLoop_stops q true stops
    simp only [webencode,cons_append,nil_append]
    rw [decodeLoop,if_neg (by decide),if_neg (by decide),if_pos rfl]
    simpa using bin
  | cons c rest ih =>
    unfold webencode
    split
    next last =>
      rw [nil_append,decodeLoop_stops q false stops,last.1,last.2]
      rfl
    · rw [append_assoc,decodeLoop_encodeByte,ih]
      rfl

variable (node : Bytes × Bytes)

theorem entry_decode (stops : Stops tail) :
    webdecode q (entry node ++ tail) = some (node.1, 61 :: (webencode node.2 ++ tail)) ∧
      webdecode q (webencode node.2 ++ tail) = some (node.2, tail) := by
  refine ⟨?_,webdecode_webencode q node.2 stops⟩
  rw [entry,append_assoc,cons_append]
  refine webdecode_webencode q node.1 ?_
  rintro c ⟨rfl⟩
  exact .inr rfl

theorem entry_ne_nil : entry node ≠ [] := by simp [entry]

/-- A scan that takes two digits as `%02x` writes them. -/
def digits : Scanner where
  scan
    | x :: y :: _ =>
      some ((if x < 58 then x - 48 else x - 87) * 16 + (if y < 58 then y - 48 else y - 87))
    | _ => none
  pair c rest := by
    have read : ∀ c : UInt8,
      (if hexDigit (c / 16) < 58 then hexDigit (c / 16) - 48 else hexDigit (c / 16) - 87) * 16 +
        (if hexDigit (c % 16) < 58 then hexDigit (c % 16) - 48 else hexDigit (c % 16) - 87) = c :=
          by decide +kernel
    exact congrArg some (read c)

theorem entry_injective : Function.Injective entry := by
  intro a b same
  have stops : Stops [] := by
    intro c inside
    exact absurd inside (Option.not_mem_none c)
  have fromA := entry_decode digits a stops
  have fromB := entry_decode digits b stops
  rw [same] at fromA
  have keys := Option.some.inj (fromA.1.symm.trans fromB.1)
  have values := (cons.inj (Prod.mk.inj keys).2).2
  rw [values] at fromA
  have data := Option.some.inj (fromA.2.symm.trans fromB.2)
  exact Prod.ext (Prod.mk.inj keys).1 (Prod.mk.inj data).1

def storeAll (nodes : List (Bytes × Bytes)) (h : Hash) : Hash :=
  nodes.foldl (fun h n => h.store n.1 n.2) h

variable (nodes : List (Bytes × Bytes))

private theorem fromLoop_join (h : Hash) {turns : Nat} (enough : nodes.length ≤ turns) :
    fromLoop q turns ([38].intercalate (nodes.map entry)) h = some (storeAll nodes h) := by
  induction nodes generalizing h turns with
  | nil => cases turns <;> rfl
  | cons node nodes ih =>
    obtain ⟨turns,rfl⟩ : ∃ n, turns = n + 1 := ⟨turns - 1,by simp only [length_cons] at enough; omega⟩
    have rest := ih (h.store node.1 node.2) (Nat.le_of_succ_le_succ enough)
    -- the string is this entry and a tail, empty or behind a `&`
    obtain ⟨tail,shape,stops,next⟩ : ∃ tail, [38].intercalate ((node :: nodes).map entry) =
      entry node ++ tail ∧
        Stops tail ∧ (tail = [] ∧ nodes = [] ∨ tail = 38 :: [38].intercalate (nodes.map entry)) := by
      cases nodes with
      | nil => exact ⟨[],by simp [intercalate],by simp [Stops],.inl ⟨rfl,rfl⟩⟩
      | cons second nodes => exact ⟨_,by simp [intercalate],by simp [Stops],.inr rfl⟩
    obtain ⟨key,value⟩ := entry_decode q node stops
    have filled : entry node ++ tail ≠ [] :=
      fun none => entry_ne_nil node (append_eq_nil_iff.mp none).1
    rw [shape,fromLoop,if_neg filled,key,Option.bind_some,if_pos (by rfl), tail_cons,value,
      Option.bind_some]
    rcases next with ⟨done,none⟩ | more
    · rw [if_pos done,none]
      rfl
    · rwa [more,if_neg (cons_ne_nil _ _),if_pos (by rfl)]

private theorem length_le_join :
    nodes.length ≤ ([38].intercalate (nodes.map entry)).length := by
  induction nodes with
  | nil => exact Nat.zero_le _
  | cons node nodes ih =>
    have filled := length_pos_iff.mpr (entry_ne_nil node)
    cases nodes with
    | nil => simpa [intercalate,Nat.succ_le_iff] using filled
    | cons second nodes =>
      simp only [intercalate,map_cons,intersperse,flatten_cons,length_append,length_cons] at ih ⊢
      omega

theorem storeAll_fetchStr {nodes : List (Bytes × Bytes)} (distinct : (nodes.map Prod.fst).Nodup)
    (h : Hash) (k : Bytes) : (storeAll nodes h).fetchStr k = (nodes.lookup k).or (h.fetchStr k) := by
  induction nodes generalizing h with
  | nil => rfl
  | cons node nodes ih =>
    rw [map_cons,nodup_cons] at distinct
    change (storeAll nodes (h.store node.1 node.2)).fetchStr k =
      (((node.1, node.2) :: nodes).lookup k).or _
    rw [ih distinct.2,Hash.fetchStr_store,lookup_step]
    by_cases same : k = node.1
    · rw [if_pos same,if_pos same,same,lookup_none distinct.1]
      rfl
    · rw [if_neg same,if_neg same]

theorem lookup_perm {first second : List (Bytes × Bytes)} (distinct : (first.map Prod.fst).Nodup)
    (perm : first.Perm second) (k : Bytes) : first.lookup k = second.lookup k := by
  cases found : second.lookup k with
  | none =>
    refine lookup_none fun inside => ?_
    obtain ⟨node,held,rfl⟩ := mem_map.mp inside
    have some := lookup_mem ((perm.map _).nodup_iff.mp distinct) (perm.mem_iff.mp held)
    exact Option.some_ne_none _ (some.symm.trans found)
  | some v => exact lookup_mem distinct (perm.mem_iff.mpr (lookup_some_mem found))

variable (s : Sorter)

private theorem sort_entries (h : Hash) : ∃ nodes : List (Bytes × Bytes), nodes.Perm h.nodes ∧
     s.sort (h.nodes.map entry) = nodes.map entry := by
  have inverse := Function.leftInverse_invFun entry_injective
  refine ⟨(s.sort (h.nodes.map entry)).map (Function.invFun entry),?_,?_⟩
  · have back := (s.perm (h.nodes.map entry)).map (Function.invFun entry)
    rwa [map_map,Function.LeftInverse.comp_eq_id inverse,map_id] at back
  · rw [map_map]
    refine ((map_congr_left ?_).trans (map_id _)).symm
    intro line inside
    obtain ⟨node,_,rfl⟩ := mem_map.mp (s.mem.mp inside)
    exact congrArg entry (inverse node)

theorem hash_toStr_none (h : Hash) : hash_toStr s h = none ↔ h.nodes = [] := by
  have empty : s.sort (h.nodes.map entry) = [] ↔ h.nodes = [] := by
    rw [← length_eq_zero_iff,(s.perm _).length_eq,length_map,length_eq_zero_iff]
  unfold hash_toStr joinLines
  rw [← empty]
  split <;> simp_all

theorem hash_fromStr_toStr {h : Hash} (filled : h.nodes ≠ []) :
    ∃ read, hash_fromStr q Hash.empty (hash_toStr s h) = some read ∧
      ∀ k, read.fetchStr k = h.fetchStr k := by
  obtain ⟨nodes,perm,sorted⟩ := sort_entries s h
  have distinct : (nodes.map Prod.fst).Nodup := (perm.map Prod.fst).nodup_iff.mpr h.distinct
  have some : nodes.map entry ≠ [] :=
    fun none => filled (perm_nil.mp (map_eq_nil_iff.mp none ▸ perm.symm))
  refine ⟨storeAll nodes Hash.empty,?_,fun k => ?_⟩
  · rw [hash_toStr,sorted,joinLines,if_neg some]
    exact fromLoop_join q nodes _ (length_le_join nodes)
  · rw [storeAll_fetchStr distinct]
    exact (Option.or_none).trans (lookup_perm distinct perm k)

theorem encodeByte_clean : ∀ c, 0 ∉ encodeByte c := by decide +kernel

theorem webencode_clean (data : Bytes) : ∀ x ∈ webencode data, x ≠ 0 := by
  induction data with
  | nil => simp [webencode]
  | cons c rest ih =>
    intro x inside
    unfold webencode at inside
    split at inside
    · cases inside
    · exact (mem_append.mp inside).elim (fun here zero => encodeByte_clean c (zero ▸ here)) (ih x)

private theorem entry_clean : ∀ x ∈ entry node, x ≠ 0 := by
  intro x inside
  rcases mem_append.mp inside with key | value
  · exact webencode_clean node.1 x key
  · rcases mem_cons.mp value with rfl | value
    · decide
    · exact webencode_clean node.2 x value

/-- The lines of equal hashes are the same set, and a set has one sorted list. -/
theorem hash_toStr_congr {h other : Hash} (same : ∀ k, h.fetchStr k = other.fetchStr k) :
    hash_toStr s h = hash_toStr s other := by
  have held : ∀ {h other : Hash}, (∀ k, h.fetchStr k = other.fetchStr k) →
      ∀ node ∈ h.nodes, node ∈ other.nodes :=
    fun same node inside =>
      lookup_some_mem ((same node.1).symm.trans (lookup_mem (Hash.distinct _) inside))
  have clean : ∀ (h : Hash), ∀ a ∈ h.nodes.map entry, ∀ x ∈ a, x ≠ 0 := by
    intro h a inside
    obtain ⟨node,_,rfl⟩ := mem_map.mp inside
    exact entry_clean node
  have nodup : ∀ h : Hash, (h.nodes.map entry).Nodup := fun h => h.distinct.of_map.map entry_injective
  have lines : s.sort (h.nodes.map entry) = s.sort (other.nodes.map entry) := by
    refine eq_of_strict (s.strict (clean h) (nodup h)) (s.strict (clean other) (nodup other))
      fun a => ?_
    rw [s.mem,s.mem,mem_map,mem_map]
    exact exists_congr fun node =>
      and_congr_left fun _ => ⟨held same node,held (fun k => (same k).symm) node⟩
  rw [hash_toStr,lines,hash_toStr]

theorem fetchStr_eq_of_toStr {h other : Hash} (same : hash_toStr s h = hash_toStr s other)
    (k : Bytes) :
    h.fetchStr k = other.fetchStr k := by
  by_cases empty : h.nodes = []
  · have otherEmpty := (hash_toStr_none s other).mp
      (same.symm.trans ((hash_toStr_none s h).mpr empty))
    rw [Hash.fetchStr,Hash.fetchStr,empty,otherEmpty]
  have otherFilled : other.nodes ≠ [] := fun none =>
    empty ((hash_toStr_none s h).mp (same.trans ((hash_toStr_none s other).mpr none)))
  obtain ⟨first,readFirst,entriesFirst⟩ := hash_fromStr_toStr digits s empty
  obtain ⟨second,readSecond,entriesSecond⟩ := hash_fromStr_toStr digits s otherFilled
  rw [same,readSecond] at readFirst
  rw [← entriesFirst,← entriesSecond,Option.some.inj readFirst]

/-- A hash with an entry comes back from its string, an empty one has none, and two strings are the
same exactly when the entries are. -/
theorem hash_toStr_canonical (h other : Hash) : (h.nodes ≠ [] → ∃ read,
      hash_fromStr q Hash.empty (hash_toStr s h) = some read ∧ ∀ k, read.fetchStr k = h.fetchStr k) ∧
    (hash_toStr s h = none ↔ h.nodes = []) ∧
    (hash_toStr s h = hash_toStr s other ↔ ∀ k, h.fetchStr k = other.fetchStr k) :=
  ⟨hash_fromStr_toStr q s,hash_toStr_none s h,fetchStr_eq_of_toStr s,hash_toStr_congr s⟩

/-- There is no string to read for the empty hash. -/
theorem hash_fromStr_empty :
    hash_fromStr digits Hash.empty (hash_toStr insertion Hash.empty) = none := by
  have none := (hash_toStr_none insertion Hash.empty).mpr rfl
  rw [none]
  rfl

end BitKeeper.Libc.HashStr
