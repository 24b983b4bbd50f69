import InfinityLabs.Ds.SllRuns

/-!
# The hash table

`ds/src/hash_table.c` over the memory of its buckets, which are singly linked lists.  The data
and the keys are pointers, and 0 is the null pointer.
-/

namespace InfinityLabs
namespace Ds

/-- A hash function and a match function, `isMatch data key`.  Data that match a key are hashed
like it, and data that match one key match each other. -/
structure HashKeys where
  func : Nat → Nat
  isMatch : Nat → Nat → Int
  consistent : ∀ data key, isMatch data key ≠ 0 → func data = func key
  matches_unique : ∀ data other key, isMatch data key ≠ 0 → isMatch other key ≠ 0 →
    isMatch data other ≠ 0

/-- A `hash_table_t`; `keys` has its two functions. -/
structure HashTable where
  capacity : Nat
  keys : HashKeys
  buckets : List Nat

/-! ## Creation -/

/-- `HashFreeBucketsUpTo`; `fuel` bounds the passes of each `SLLDestroy`. -/
def hashFreeBucketsUpTo (m : SllMemory) (fuel : Nat) (buckets : List Nat) : Option SllMemory :=
  buckets.foldlM (fun m bucket => m.sllDestroy fuel bucket) m

/-- The loop of `HashTableCreate` over what the calls of `malloc` return for each bucket. -/
def hashCreateBuckets (fuel : Nat) :
    SllMemory → List Nat → List (Option Nat × Option Nat) → Option (SllMemory × Option (List Nat))
  | m, buckets, [] => some (m, some buckets)
  | m, buckets, (list, dummy) :: rest =>
      let (m', bucket) := m.sllCreate list dummy
      if bucket = 0 then (hashFreeBucketsUpTo m' fuel buckets).map fun m' => (m', none)
      else hashCreateBuckets fuel m' (buckets ++ [bucket]) rest

/-- `HashTableCreate`, with whether there is memory for the table and for its array, and with
what the calls of `malloc` return for each bucket. -/
def hashTableCreate (m : SllMemory) (fuel : Nat) (keys : HashKeys) (table array : Bool)
    (lists : List (Option Nat × Option Nat)) : Option (SllMemory × Option HashTable) :=
  if lists.length = 0 ∨ table = false ∨ array = false then some (m, none)
  else
    (hashCreateBuckets fuel m [] lists).map fun (m', buckets) =>
      (m', buckets.map fun buckets => { capacity := lists.length, keys, buckets })

namespace HashTable

variable (t : HashTable)

/-! ## The operations -/

/-- `HashIndex`. -/
def hashIndex (key : Nat) : Nat := t.keys.func key % t.capacity

/-- `HashFindInBucket`. -/
def hashFindInBucket (m : SllMemory) (fuel bucket key : Nat) : Option Nat := do
  let begin_ ← m.sllBegin bucket
  let end_ ← m.sllEnd bucket
  m.sllFind (t.keys.isMatch · key) fuel begin_ end_

/-- `HashTableInsert`, with what `malloc` returns; the data must not be in the table. -/
def hashTableInsert (m : SllMemory) (fuel : Nat) (node : Option Nat) (data : Nat) :
    Option (SllMemory × Int) :=
  if data = 0 then none
  else do
    let bucket ← t.buckets[t.hashIndex data]?
    let foundIter ← t.hashFindInBucket m fuel bucket data
    let end_ ← m.sllEnd bucket
    if foundIter ≠ end_ then none
    else
      let whereIter ← m.sllBegin bucket
      let (m', newIter) ← m.sllInsert fuel node whereIter data
      let end_ ← m'.sllEnd bucket
      some (m', if newIter = end_ then 1 else 0)

/-- `HashTableFind`. -/
def hashTableFind (m : SllMemory) (fuel key : Nat) : Option Nat :=
  if key = 0 then none
  else do
    let bucket ← t.buckets[t.hashIndex key]?
    let iter ← t.hashFindInBucket m fuel bucket key
    let end_ ← m.sllEnd bucket
    if iter ≠ end_ then m.sllGetData iter else some 0

/-- `HashTableRemove`. -/
def hashTableRemove (m : SllMemory) (fuel key : Nat) : Option SllMemory :=
  if key = 0 then none
  else do
    let bucket ← t.buckets[t.hashIndex key]?
    let iter ← t.hashFindInBucket m fuel bucket key
    let end_ ← m.sllEnd bucket
    if iter ≠ end_ then (m.sllRemove iter).map Prod.fst else some m

/-- The loop of `HashTableSize`; the total is a `size_t`. -/
def sizeLoop (m : SllMemory) (fuel : Nat) : List Nat → Nat → Option Nat
  | [], total => some total
  | bucket :: rest, total =>
      (m.sllCount fuel bucket).bind fun count => sizeLoop m fuel rest ((total + count) % 2 ^ 64)

/-- `HashTableSize`. -/
def hashTableSize (m : SllMemory) (fuel : Nat) : Option Nat := sizeLoop m fuel t.buckets 0

/-- The loop of `HashTableIsEmpty`. -/
def isEmptyLoop (m : SllMemory) : List Nat → Option Bool
  | [] => some true
  | bucket :: rest =>
      (m.sllIsEmpty bucket).bind fun isEmpty =>
        if isEmpty then isEmptyLoop m rest else some false

/-- `HashTableIsEmpty`. -/
def hashTableIsEmpty (m : SllMemory) : Option Bool := isEmptyLoop m t.buckets

end HashTable

/-!
## The hash table over its runs

The buckets are lists that share no node, and an entry is in the bucket of its index.  So the
table is a finite map, whatever the capacity, the functions and the sequence of calls.
-/

open Lib

/-! ## Several lists -/

/-- The lists hold the contents, place by place. -/
def SllMemory.HoldLists (m : SllMemory) (lists : List Nat) (contents : List (List Nat)) : Prop :=
  lists.length = contents.length ∧ ∀ (i list : Nat) (content : List Nat), lists[i]? = some list →
    contents[i]? = some content → ∃ header nodes, m.IsList list header nodes content

namespace SllMemory.HoldLists

variable {m m' : SllMemory} {lists : List Nat} {contents : List (List Nat)}

/-- A call at one of the lists keeps the others. -/
theorem set (h : m.HoldLists lists contents) (hnodup : lists.Nodup) {i list : Nat}
    {content content' : List Nat} (hlist : lists[i]? = some list)
    (hholds : SllState.Holds list ⟨m', content'⟩)
    (hothers : SllState.KeepsOthers list ⟨m, content⟩ ⟨m', content'⟩) :
    m'.HoldLists lists (contents.set i content') := by
  refine ⟨by rw [List.length_set, h.1], fun j other otherContent hother hcontent => ?_⟩
  rcases of_getElem?_set hcontent with ⟨rfl, rfl⟩ | ⟨hij, hcontent⟩
  · obtain rfl := Option.some.inj (hlist.symm.trans hother)
    exact hholds
  · obtain ⟨header, nodes, hnodes⟩ := h.2 j other otherContent hother hcontent
    have hne : other ≠ list := by
      rintro rfl
      exact hij ((List.getElem?_inj (List.getElem?_eq_some_iff.mp hother).1 hnodup).mp
        (hother.trans hlist.symm))
    exact ⟨header, nodes, hothers other header nodes otherContent hne hnodes⟩

/-- The first of the lists, and the others. -/
theorem of_cons {list : Nat} (h : m.HoldLists (list :: lists) contents) :
    ∃ content rest, contents = content :: rest ∧
      (∃ header nodes, m.IsList list header nodes content) ∧ m.HoldLists lists rest := by
  obtain ⟨hlength, hholds⟩ := h
  cases contents with
  | nil => cases hlength
  | cons content rest =>
      refine ⟨content, rest, rfl, hholds 0 list content rfl rfl, Nat.succ.inj hlength, ?_⟩
      exact fun i other otherContent hother hcontent =>
        hholds (i + 1) other otherContent hother hcontent

/-- The nodes of the lists are distinct, and each list has one more than elements. -/
theorem exists_nodes (h : m.HoldLists lists contents) (hnodup : lists.Nodup) :
    ∃ l : List Nat, l.Nodup ∧ contents.flatten.length ≤ l.length ∧
      ∀ address ∈ l, ∃ list ∈ lists, ∃ header nodes content,
        m.IsList list header nodes content ∧ address ∈ nodes := by
  induction lists generalizing contents with
  | nil =>
      obtain rfl : contents = [] := List.eq_nil_of_length_eq_zero h.1.symm
      exact ⟨[], List.nodup_nil, Nat.le_refl _, fun address hmem => absurd hmem List.not_mem_nil⟩
  | cons list lists ih =>
      obtain ⟨hnotMem, hnodup⟩ := List.nodup_cons.mp hnodup
      obtain ⟨content, rest, rfl, ⟨header, nodes, hnodes⟩, hrest⟩ := h.of_cons
      obtain ⟨l, hl, hle, hmem⟩ := ih hrest hnodup
      refine ⟨nodes ++ l, List.nodup_append.mpr ⟨hnodes.linked.nodup, hl, ?_⟩, ?_, ?_⟩
      · rintro address haddress other hother rfl
        obtain ⟨list', hlist', header', nodes', content', hnodes', haddress'⟩ :=
          hmem address hother
        have hne : list ≠ list' := fun heq => hnotMem (heq ▸ hlist')
        exact hnodes.disjoint hnodes' hne address haddress haddress'
      · have hlength : nodes.length = content.length + 1 := hnodes.length_eq
        rw [List.flatten_cons, List.length_append, List.length_append]
        omega
      · intro address haddress
        rcases List.mem_append.mp haddress with haddress | haddress
        · exact ⟨list, List.mem_cons_self, header, nodes, content, hnodes, haddress⟩
        · obtain ⟨list', hlist', hrest'⟩ := hmem address haddress
          exact ⟨list', List.mem_cons_of_mem list hlist', hrest'⟩

/-- The elements of the lists are fewer than the addresses. -/
theorem length_lt (h : m.HoldLists lists contents) (hnodup : lists.Nodup) :
    contents.flatten.length < 2 ^ 64 := by
  obtain ⟨l, hl, hle, hmem⟩ := h.exists_nodes hnodup
  refine Nat.lt_of_le_of_lt hle (length_lt_of_nodup (Nat.two_pow_pos 64) hl ?_ ?_)
  · intro address haddress
    obtain ⟨list, -, header, nodes, content, hnodes, hnode⟩ := hmem address haddress
    exact hnodes.linked.ne_zero address hnode
  · intro address haddress
    obtain ⟨list, -, header, nodes, content, hnodes, hnode⟩ := hmem address haddress
    exact (hnodes.allocated address hnode).1

/-- The loop of `HashTableSize` adds the elements up. -/
theorem sizeLoop (h : m.HoldLists lists contents) {fuel total : Nat}
    (hfuel : contents.flatten.length < fuel)
    (htotal : total + contents.flatten.length < 2 ^ 64) :
    HashTable.sizeLoop m fuel lists total = some (total + contents.flatten.length) := by
  induction lists generalizing contents total with
  | nil =>
      obtain rfl : contents = [] := List.eq_nil_of_length_eq_zero h.1.symm
      rfl
  | cons list lists ih =>
      obtain ⟨content, rest, rfl, ⟨header, nodes, hnodes⟩, hrest⟩ := h.of_cons
      rw [List.flatten_cons, List.length_append] at hfuel htotal ⊢
      have hcount : m.sllCount fuel list = some content.length := hnodes.count (by omega)
      rw [HashTable.sizeLoop, hcount, Option.bind_some, Nat.mod_eq_of_lt (by omega),
        ih hrest (by omega) (by omega), Nat.add_assoc]

/-- The loop of `HashTableIsEmpty` finds an element if there is one. -/
theorem isEmptyLoop (h : m.HoldLists lists contents) :
    HashTable.isEmptyLoop m lists = some (contents.flatten == []) := by
  induction lists generalizing contents with
  | nil =>
      obtain rfl : contents = [] := List.eq_nil_of_length_eq_zero h.1.symm
      rfl
  | cons list lists ih =>
      obtain ⟨content, rest, rfl, ⟨header, nodes, hnodes⟩, hrest⟩ := h.of_cons
      rw [HashTable.isEmptyLoop, hnodes.isEmpty, Option.bind_some, List.flatten_cons]
      cases content with
      | nil => exact ih hrest
      | cons data content => rfl

end SllMemory.HoldLists

/-! ## The table -/

namespace HashTable

/-- The entry matches the key. -/
def matchesKey (t : HashTable) (key data : Nat) : Bool := decide (t.keys.isMatch data key ≠ 0)

/-- The elements of the contents are at their places. -/
def Placed (t : HashTable) (contents : List (List Nat)) : Prop :=
  ∀ (i : Nat) (content : List Nat), contents[i]? = some content →
    ∀ data ∈ content, t.hashIndex data = i

/-- The table is well formed and has the entries. -/
structure Holds (t : HashTable) (m : SllMemory) (entries : List Nat) : Prop where
  capacity_pos : 0 < t.capacity
  length_eq : t.buckets.length = t.capacity
  nodup : t.buckets.Nodup
  contents : ∃ contents, m.HoldLists t.buckets contents ∧ entries.Perm contents.flatten ∧
    t.Placed contents
  ne_null : ∀ data ∈ entries, data ≠ 0
  unique : ∀ key, entries.Pairwise fun data other =>
    ¬ (t.matchesKey key data ∧ t.matchesKey key other)

variable {t : HashTable} {m m' : SllMemory} {entries : List Nat}

/-- The elements of the other contents have other places. -/
theorem Placed.ne_of_mem {c₁ c₂ : List (List Nat)} {content : List Nat}
    (h : t.Placed (c₁ ++ content :: c₂)) :
    ∀ data ∈ c₁.flatten ++ c₂.flatten, t.hashIndex data ≠ c₁.length := by
  intro data hmem
  rcases List.mem_append.mp hmem with hmem | hmem
  · obtain ⟨other, hother, hdata⟩ := List.mem_flatten.mp hmem
    obtain ⟨i, hi⟩ := List.mem_iff_getElem?.mp hother
    have hlt := (List.getElem?_eq_some_iff.mp hi).1
    rw [← List.getElem?_append_left hlt] at hi
    rw [h i other hi data hdata]
    exact Nat.ne_of_lt hlt
  · obtain ⟨other, hother, hdata⟩ := List.mem_flatten.mp hmem
    obtain ⟨i, hi⟩ := List.mem_iff_getElem?.mp hother
    have hget : (c₁ ++ content :: c₂)[c₁.length + (i + 1)]? = some other := by
      rw [List.getElem?_append_right (Nat.le_add_right _ _), Nat.add_sub_cancel_left,
        List.getElem?_cons_succ, hi]
    rw [h _ other hget data hdata]
    omega

/-- A content takes the place of another. -/
theorem Placed.set {contents : List (List Nat)} (h : t.Placed contents) {i : Nat}
    {content : List Nat} (hcontent : ∀ data ∈ content, t.hashIndex data = i) :
    t.Placed (contents.set i content) := by
  intro j other hget
  rcases of_getElem?_set hget with ⟨rfl, rfl⟩ | ⟨-, hget⟩
  · exact hcontent
  · exact h j other hget

/-- Data that match a key are at its place. -/
theorem hashIndex_eq_of_matchesKey {key data : Nat} (h : t.matchesKey key data) :
    t.hashIndex data = t.hashIndex key := by
  rw [hashIndex, hashIndex, t.keys.consistent data key (of_decide_eq_true h)]

/-- The entries that match a key are in its bucket, and a call there keeps the others. -/
theorem Holds.split (h : t.Holds m entries) (key : Nat) :
    ∃ bucket header nodes content before after,
      t.buckets[t.hashIndex key]? = some bucket ∧ m.IsList bucket header nodes content ∧
      entries.Perm (before ++ content ++ after) ∧
      (∀ data ∈ before ++ after, t.matchesKey key data = false) ∧
      (∀ data ∈ content, t.hashIndex data = t.hashIndex key) ∧
      ∀ m' content', SllState.Holds bucket ⟨m', content'⟩ →
        SllState.KeepsOthers bucket ⟨m, content⟩ ⟨m', content'⟩ →
        (∀ data ∈ content', t.hashIndex data = t.hashIndex key) →
        ∃ contents', m'.HoldLists t.buckets contents' ∧
          contents'.flatten = before ++ content' ++ after ∧ t.Placed contents' := by
  obtain ⟨contents, hlists, hperm, hplaced⟩ := h.contents
  have hindex : t.hashIndex key < t.buckets.length := by
    rw [h.length_eq]
    exact Nat.mod_lt _ h.capacity_pos
  have hbucket := List.getElem?_eq_getElem hindex
  obtain ⟨content, hcontent⟩ : ∃ content, contents[t.hashIndex key]? = some content :=
    ⟨_, List.getElem?_eq_getElem (hlists.1 ▸ hindex)⟩
  obtain ⟨header, nodes, hnodes⟩ := hlists.2 _ _ _ hbucket hcontent
  have hin := hplaced _ _ hcontent
  obtain ⟨c₁, c₂, rfl, hlength⟩ := exists_append_cons_of_getElem? hcontent
  refine ⟨_, header, nodes, content, c₁.flatten, c₂.flatten, hbucket, hnodes, ?_, ?_, hin, ?_⟩
  · rwa [List.flatten_append, List.flatten_cons, ← List.append_assoc] at hperm
  · intro data hmem
    refine Bool.eq_false_iff.mpr fun hmatches => hplaced.ne_of_mem data hmem ?_
    rw [hashIndex_eq_of_matchesKey hmatches, hlength]
  · intro m' content' hholds hothers hplaced'
    refine ⟨_, hlists.set h.nodup hbucket hholds hothers, ?_, hplaced.set hplaced'⟩
    rw [← hlength, set_split, List.flatten_append, List.flatten_cons, List.append_assoc]

/-! ## The operations -/

/-- `HashFindInBucket` searches the whole list. -/
theorem hashFindInBucket_eq {bucket : Nat} {header : SllHeader} {nodes content : List Nat}
    (h : m.IsList bucket header nodes content) (fuel key : Nat) :
    t.hashFindInBucket m fuel bucket key =
      m.sllFind (t.keys.isMatch · key) fuel header.head header.tail := by
  simp only [hashFindInBucket, h.sllBegin_eq, h.sllEnd_eq, Option.bind_eq_bind, Option.bind_some]

/-- What does not match has the match function 0. -/
theorem matchesKey_eq_false {key data : Nat} :
    t.matchesKey key data = false ↔ t.keys.isMatch data key = 0 := by
  rw [matchesKey, decide_eq_false_iff_not, not_not]

/-- A key that matches nothing in its bucket matches no entry. -/
theorem matchesKey_entries {key : Nat} {before content after : List Nat}
    (hperm : entries.Perm (before ++ content ++ after))
    (hout : ∀ data ∈ before ++ after, t.matchesKey key data = false)
    (hnone : ∀ data ∈ content, t.keys.isMatch data key = 0) :
    ∀ entry ∈ entries, t.matchesKey key entry = false := by
  intro entry hentry
  have hmem := hperm.mem_iff.mp hentry
  simp only [List.mem_append] at hmem hout
  rcases hmem with (hmem | hmem) | hmem
  · exact hout entry (Or.inl hmem)
  · exact matchesKey_eq_false.mpr (hnone entry hmem)
  · exact hout entry (Or.inr hmem)

/-- `HashTableFind` returns the entry that matches the key, and null where there is none. -/
theorem Holds.find (h : t.Holds m entries) {key fuel : Nat} (hkey : key ≠ 0)
    (hfuel : entries.length < fuel) :
    t.hashTableFind m fuel key = some ((entries.find? (t.matchesKey key)).getD 0) := by
  obtain ⟨bucket, header, nodes, content, before, after, hbucket, hnodes, hperm, hout, -⟩ :=
    h.split key
  have hlength := hperm.length_eq
  rw [List.length_append, List.length_append] at hlength
  rcases hnodes.find (t.keys.isMatch · key) (by omega : content.length < fuel) with
    ⟨hnone, hfind⟩ | ⟨l₁, iter, tmp, l₂, b, a, rfl, rfl, -, hb, hmatch, hne, hfind⟩
  · have hnot : entries.find? (t.matchesKey key) = none :=
      List.find?_eq_none.mpr fun entry hentry =>
        Bool.eq_false_iff.mp (matchesKey_entries hperm hout hnone entry hentry)
    rw [hnot, Option.getD_none]
    simp only [hashTableFind, if_neg hkey, hbucket, hashFindInBucket_eq hnodes, hfind,
      hnodes.sllEnd_eq, Option.bind_eq_bind, Option.bind_some, ne_eq, not_true, if_false]
  · have hfound : (before ++ (b ++ m.data iter :: a) ++ after).find? (t.matchesKey key) =
        some (m.data iter) := by
      refine List.find?_eq_some_iff_append.mpr
        ⟨decide_eq_true hmatch, before ++ b, a ++ after, by simp, fun data hmem => ?_⟩
      rw [Bool.not_eq_true']
      rcases List.mem_append.mp hmem with hmem | hmem
      · exact hout data (List.mem_append_left _ hmem)
      · exact matchesKey_eq_false.mpr (hb data hmem)
    have hdata : m.sllGetData iter = some (m.data iter) := by
      rw [SllMemory.sllGetData, SllMemory.node?_eq
        (hnodes.allocated iter (List.mem_append_right _ List.mem_cons_self)).2, Option.map_some]
    rw [find?_eq_of_perm hperm (h.unique key), hfound, Option.getD_some]
    simp only [hashTableFind, if_neg hkey, hbucket, hashFindInBucket_eq hnodes, hfind,
      hnodes.sllEnd_eq, Option.bind_eq_bind, Option.bind_some, if_pos hne, hdata]

/-- An entry is in the table only once, whatever it matches. -/
theorem Holds.insert_unique (h : t.Holds m entries) {data : Nat}
    (hnew : ∀ entry ∈ entries, t.matchesKey data entry = false) (key : Nat) :
    (data :: entries).Pairwise fun data other =>
      ¬ (t.matchesKey key data ∧ t.matchesKey key other) := by
  refine List.pairwise_cons.mpr ⟨fun entry hmem hboth => ?_, h.unique key⟩
  refine t.keys.matches_unique entry data key (of_decide_eq_true hboth.2)
    (of_decide_eq_true hboth.1) ?_
  exact matchesKey_eq_false.mp (hnew entry hmem)

/-- The call that searches the bucket of a new key comes to its end. -/
theorem search_new {data fuel : Nat}
    (hfuel : entries.length < fuel)
    (hnew : ∀ entry ∈ entries, t.matchesKey data entry = false) {bucket : Nat}
    {header : SllHeader} {nodes content before after : List Nat}
    (hnodes : m.IsList bucket header nodes content)
    (hperm : entries.Perm (before ++ content ++ after)) :
    t.hashFindInBucket m fuel bucket data = some header.tail := by
  have hlength := hperm.length_eq
  rw [List.length_append, List.length_append] at hlength
  rw [hashFindInBucket_eq hnodes]
  rcases hnodes.find (t.keys.isMatch · data) (by omega : content.length < fuel) with
    ⟨-, hfind⟩ | ⟨l₁, iter, tmp, l₂, b, a, rfl, rfl, -, -, hmatch, -, -⟩
  · exact hfind
  · refine absurd (matchesKey_eq_false.mp (hnew (m.data iter) ?_)) hmatch
    exact hperm.mem_iff.mpr (by simp)

/-- `HashTableInsert` of data that are not null and match no entry makes them an entry. -/
theorem Holds.insert (h : t.Holds m entries) {data node fuel : Nat} (hdata : data ≠ 0)
    (hnew : ∀ entry ∈ entries, t.matchesKey data entry = false) (hfree : m.IsFree node)
    (hfuel : entries.length < fuel) :
    ∃ m', t.hashTableInsert m fuel (some node) data = some (m', 0) ∧
      t.Holds m' (data :: entries) := by
  obtain ⟨bucket, header, nodes, content, before, after, hbucket, hnodes, hperm, -, hin, hcall⟩ :=
    h.split data
  have hsearch := search_new hfuel hnew hnodes hperm
  obtain ⟨m', header', nodes', hinsert, hnodes', hhead, hsame, hmem⟩ :=
    hnodes.insert_head hfree fuel data
  -- the tail moves only to the new node
  obtain ⟨-, -, -, -, hne⟩ := hnodes'.nodes_of_cons
  rw [hhead] at hne
  refine ⟨m', ?_, h.capacity_pos, h.length_eq, h.nodup, ?_, ?_, h.insert_unique hnew⟩
  · simp only [hashTableInsert, if_neg hdata, hbucket, hsearch, hnodes.sllEnd_eq,
      hnodes.sllBegin_eq, hinsert, hnodes'.sllEnd_eq, Option.bind_eq_bind, Option.bind_some,
      ne_eq, not_true, if_false, if_neg hne]
  · have hkeeps : SllState.KeepsOthers bucket ⟨m, content⟩ ⟨m', data :: content⟩ := by
      intro other otherHeader others otherContent hother hothers
      refine hnodes.keeps_others hsame (fun address hwritten => ?_) hother hothers
      rcases List.mem_cons.mp hwritten with rfl | hwritten
      · exact Or.inl hmem
      · exact Or.inr (List.mem_singleton.mp hwritten ▸ hfree)
    have hplaced' : ∀ entry ∈ data :: content, t.hashIndex entry = t.hashIndex data := by
      intro entry hentry
      rcases List.mem_cons.mp hentry with rfl | hentry
      · rfl
      · exact hin entry hentry
    obtain ⟨contents', hlists, hflatten, hplaced⟩ :=
      hcall m' (data :: content) ⟨header', nodes', hnodes'⟩ hkeeps hplaced'
    refine ⟨contents', hlists, ?_, hplaced⟩
    rw [hflatten]
    refine (hperm.cons data).trans ?_
    rw [List.append_assoc, List.append_assoc, List.cons_append]
    exact List.perm_middle.symm
  · intro entry hentry
    rcases List.mem_cons.mp hentry with rfl | hentry
    · exact hdata
    · exact h.ne_null entry hentry

/-- Without memory `HashTableInsert` leaves the table as it is, and reports it. -/
theorem Holds.insert_fails (h : t.Holds m entries) {data fuel : Nat} (hdata : data ≠ 0)
    (hnew : ∀ entry ∈ entries, t.matchesKey data entry = false)
    (hfuel : entries.length < fuel) :
    t.hashTableInsert m fuel none data = some (m, 1) := by
  obtain ⟨bucket, header, nodes, content, before, after, hbucket, hnodes, hperm, -⟩ :=
    h.split data
  have hsearch := search_new hfuel hnew hnodes hperm
  have hlength := hperm.length_eq
  rw [List.length_append, List.length_append] at hlength
  have hfails := hnodes.insert_head_fails (by omega : content.length < fuel) data
  simp only [hashTableInsert, if_neg hdata, hbucket, hsearch, hnodes.sllEnd_eq,
    hnodes.sllBegin_eq, hfails, Option.bind_eq_bind, Option.bind_some, ne_eq, not_true, if_false,
    if_true]

/-- `HashTableInsert` returns only for data that are not null and match no entry. -/
theorem Holds.new_of_insert (h : t.Holds m entries) {data fuel : Nat} {node : Option Nat}
    {result : SllMemory × Int} (hfuel : entries.length < fuel)
    (hinsert : t.hashTableInsert m fuel node data = some result) :
    data ≠ 0 ∧ ∀ entry ∈ entries, t.matchesKey data entry = false := by
  obtain ⟨hdata, hcall⟩ := Option.ite_none_left_eq_some.mp hinsert
  obtain ⟨bucket, header, nodes, content, before, after, hbucket, hnodes, hperm, hout, -⟩ :=
    h.split data
  have hlength := hperm.length_eq
  rw [List.length_append, List.length_append] at hlength
  refine ⟨hdata, ?_⟩
  rcases hnodes.find (t.keys.isMatch · data) (by omega : content.length < fuel) with
    ⟨hnone, -⟩ | ⟨l₁, iter, tmp, l₂, b, a, rfl, rfl, -, -, -, hne, hfind⟩
  · exact matchesKey_entries hperm hout hnone
  · simp only [hbucket, hashFindInBucket_eq hnodes, hfind, hnodes.sllEnd_eq,
      Option.bind_eq_bind, Option.bind_some, if_pos hne] at hcall
    cases hcall

/-- `HashTableRemove` takes out the entry that matches the key. -/
theorem Holds.remove (h : t.Holds m entries) {key fuel : Nat} (hkey : key ≠ 0)
    (hfuel : entries.length < fuel) :
    ∃ m', t.hashTableRemove m fuel key = some m' ∧
      t.Holds m' (entries.filter fun entry => !t.matchesKey key entry) := by
  obtain ⟨bucket, header, nodes, content, before, after, hbucket, hnodes, hperm, hout, hin,
    hcall⟩ := h.split key
  have hlength := hperm.length_eq
  rw [List.length_append, List.length_append] at hlength
  rcases hnodes.find (t.keys.isMatch · key) (by omega : content.length < fuel) with
    ⟨hnone, hfind⟩ | ⟨l₁, iter, tmp, l₂, b, a, rfl, rfl, hb, -, hmatch, hne, hfind⟩
  · have hall : entries.filter (fun entry => !t.matchesKey key entry) = entries := by
      refine List.filter_eq_self.mpr fun entry hentry => ?_
      rw [matchesKey_entries hperm hout hnone entry hentry, Bool.not_false]
    rw [hall]
    refine ⟨m, ?_, h⟩
    simp only [hashTableRemove, if_neg hkey, hbucket, hashFindInBucket_eq hnodes, hfind,
      hnodes.sllEnd_eq, Option.bind_eq_bind, Option.bind_some, ne_eq, not_true, if_false]
  · obtain ⟨m', header', hremove, hnodes', hsame⟩ := hnodes.remove
    rw [← hb, eraseIdx_split] at hnodes'
    refine ⟨m', ?_, h.capacity_pos, h.length_eq, h.nodup, ?_, ?_, fun key' =>
      (h.unique key').filter _⟩
    · simp only [hashTableRemove, if_neg hkey, hbucket, hashFindInBucket_eq hnodes, hfind,
        hnodes.sllEnd_eq, Option.bind_eq_bind, Option.bind_some, if_pos hne, hremove,
        Option.map_some]
    · have hkeeps : SllState.KeepsOthers bucket ⟨m, b ++ m.data iter :: a⟩ ⟨m', b ++ a⟩ := by
        intro other otherHeader others otherContent hother hothers
        refine hnodes.keeps_others hsame (fun address hwritten => Or.inl ?_) hother hothers
        refine List.mem_append_right _ ?_
        simp only [List.mem_cons, List.not_mem_nil, or_false] at hwritten ⊢
        exact hwritten.elim Or.inl fun heq => Or.inr (Or.inl heq)
      have hplaced' : ∀ entry ∈ b ++ a, t.hashIndex entry = t.hashIndex key := by
        intro entry hentry
        refine hin entry ?_
        rcases List.mem_append.mp hentry with hentry | hentry
        · exact List.mem_append_left _ hentry
        · exact List.mem_append_right _ (List.mem_cons_of_mem _ hentry)
      obtain ⟨contents', hlists, hflatten, hplaced⟩ :=
        hcall m' (b ++ a) ⟨header', _, hnodes'⟩ hkeeps hplaced'
      refine ⟨contents', hlists, ?_, hplaced⟩
      have hsplit : before ++ (b ++ m.data iter :: a) ++ after =
          (before ++ b) ++ m.data iter :: (a ++ after) := by simp
      rw [hsplit] at hperm
      have hunique := (hperm.pairwise_iff fun hab hba => hab ⟨hba.2, hba.1⟩).mp (h.unique key)
      have hpass : t.matchesKey key (m.data iter) := decide_eq_true hmatch
      have hfilter := hperm.filter fun entry => !t.matchesKey key entry
      rw [filter_not_split hpass hunique] at hfilter
      rw [hflatten]
      simpa using hfilter
    · exact fun entry hentry => h.ne_null entry (List.mem_of_mem_filter hentry)

/-- `HashTableSize` is the number of the entries. -/
theorem Holds.size (h : t.Holds m entries) {fuel : Nat} (hfuel : entries.length < fuel) :
    t.hashTableSize m fuel = some entries.length := by
  obtain ⟨contents, hlists, hperm, -⟩ := h.contents
  have hlength := hperm.length_eq
  have hlt := hlists.length_lt h.nodup
  rw [hashTableSize, hlists.sizeLoop (by omega) (by omega), Nat.zero_add, hlength]

/-- `HashTableIsEmpty` tells whether there is no entry. -/
theorem Holds.isEmpty (h : t.Holds m entries) :
    t.hashTableIsEmpty m = some (entries == []) := by
  obtain ⟨contents, hlists, hperm, -⟩ := h.contents
  rw [hashTableIsEmpty, hlists.isEmptyLoop, Option.some.injEq, Bool.eq_iff_iff, beq_iff_eq,
    beq_iff_eq]
  constructor
  · exact fun hnil => List.perm_nil.mp (hnil ▸ hperm)
  · exact fun hnil => List.nil_perm.mp (hnil ▸ hperm)

/-! ## Creation -/

/-- `SLLCreate` keeps the other lists. -/
theorem sllCreate_keeps {list dummy : Nat} (hlist : m.IsFree list) (hdummy : m.IsFree dummy)
    {other : Nat} {header : SllHeader} {nodes content : List Nat}
    (h : m.IsList other header nodes content) :
    (m.sllCreate (some list) (some dummy)).1.IsList other header nodes content := by
  refine h.congr (fun address hmem => ?_) ?_
  · exact SllMemory.setNode_node?_of_ne _ (hdummy.ne_of_mem h address hmem) _
  · refine SllMemory.setList_list?_of_ne m ?_ _
    rintro rfl
    have hheader := h.header_eq
    rw [hlist.2.2.2] at hheader
    cases hheader

/-- `SLLCreate` leaves the other free addresses free. -/
theorem sllCreate_isFree {list dummy address : Nat} (h : m.IsFree address)
    (hlist : address ≠ list) (hdummy : address ≠ dummy) :
    (m.sllCreate (some list) (some dummy)).1.IsFree address :=
  ⟨h.1, h.2.1, (SllMemory.setNode_node?_of_ne _ hdummy _).trans h.2.2.1,
    (SllMemory.setList_list?_of_ne m hlist _).trans h.2.2.2⟩

/-- `HashTableCreate` with memory for every bucket makes empty lists. -/
theorem hashCreateBuckets_eq (fuel : Nat) {lists : List (Nat × Nat)} {buckets : List Nat}
    (hbuckets : ∀ bucket ∈ buckets, ∃ header nodes, m.IsList bucket header nodes [])
    (hnodup : (lists.map Prod.fst ++ lists.map Prod.snd).Nodup)
    (hfree : ∀ address ∈ lists.map Prod.fst ++ lists.map Prod.snd, m.IsFree address) :
    ∃ m', hashCreateBuckets fuel m buckets
        (lists.map fun list => (some list.1, some list.2)) =
          some (m', some (buckets ++ lists.map Prod.fst)) ∧
      ∀ bucket ∈ buckets ++ lists.map Prod.fst, ∃ header nodes,
        m'.IsList bucket header nodes [] := by
  induction lists generalizing m buckets with
  | nil =>
      rw [List.map_nil, List.map_nil, List.append_nil]
      exact ⟨m, rfl, hbuckets⟩
  | cons pair lists ih =>
      obtain ⟨list, dummy⟩ := pair
      simp only [List.map_cons, List.cons_append, List.nodup_cons, List.nodup_middle,
        List.mem_append, List.mem_cons, not_or] at hnodup hfree
      obtain ⟨⟨hlistFst, hne, hlistSnd⟩, ⟨hdummyFst, hdummySnd⟩, hnodup⟩ := hnodup
      have hlist := hfree list (Or.inl rfl)
      have hdummy := hfree dummy (Or.inr (Or.inr (Or.inl rfl)))
      have hnew : ∃ header nodes,
          (m.sllCreate (some list) (some dummy)).1.IsList list header nodes [] :=
        holds_start (s := ⟨(m.sllCreate (some list) (some dummy)).1, []⟩)
          ⟨m, dummy, hlist, hdummy, Ne.symm hne, rfl, rfl⟩
      have hbuckets' : ∀ bucket ∈ buckets ++ [list], ∃ header nodes,
          (m.sllCreate (some list) (some dummy)).1.IsList bucket header nodes [] := by
        intro bucket hmem
        rcases List.mem_append.mp hmem with hmem | hmem
        · obtain ⟨header, nodes, hnodes⟩ := hbuckets bucket hmem
          exact ⟨header, nodes, sllCreate_keeps hlist hdummy hnodes⟩
        · rwa [List.mem_singleton.mp hmem]
      have hfree' : ∀ address ∈ lists.map Prod.fst ++ lists.map Prod.snd,
          (m.sllCreate (some list) (some dummy)).1.IsFree address := by
        intro address hmem
        have hold : m.IsFree address := by
          rcases List.mem_append.mp hmem with hmem | hmem
          · exact hfree address (Or.inr (Or.inl hmem))
          · exact hfree address (Or.inr (Or.inr (Or.inr hmem)))
        refine sllCreate_isFree hold ?_ ?_
        · rintro rfl
          exact (List.mem_append.mp hmem).elim hlistFst hlistSnd
        · rintro rfl
          exact (List.mem_append.mp hmem).elim hdummyFst hdummySnd
      obtain ⟨m', hcreate, hlists⟩ := ih hbuckets' hnodup hfree'
      rw [List.append_assoc, List.singleton_append] at hcreate hlists
      have hzero : list ≠ 0 := Nat.ne_of_gt hlist.1
      refine ⟨m', ?_, hlists⟩
      rw [List.map_cons, hashCreateBuckets]
      exact (if_neg hzero).trans hcreate

/-- The contents of lists that are all empty. -/
theorem holdLists_of_empty {lists : List Nat}
    (h : ∀ list ∈ lists, ∃ header nodes, m.IsList list header nodes []) :
    m.HoldLists lists (lists.map fun _ => []) := by
  refine ⟨(List.length_map ..).symm, fun i list content hlist hcontent => ?_⟩
  rw [List.getElem?_map, hlist, Option.map_some, Option.some.injEq] at hcontent
  rw [← hcontent]
  exact h list (List.mem_of_getElem? hlist)

/-- A new table is empty. -/
theorem holds_hashTableCreate {fuel : Nat} {lists : List (Nat × Nat)}
    (hnodup : (lists.map Prod.fst ++ lists.map Prod.snd).Nodup)
    (hfree : ∀ address ∈ lists.map Prod.fst ++ lists.map Prod.snd, m.IsFree address)
    (hcreate : hashTableCreate m fuel t.keys true true
      (lists.map fun list => (some list.1, some list.2)) = some (m', some t)) :
    t.Holds m' [] := by
  have hnone : ∀ bucket ∈ [], ∃ header nodes, m.IsList bucket header nodes [] :=
    fun bucket hmem => absurd hmem List.not_mem_nil
  obtain ⟨m'', hbuckets, hempty⟩ := hashCreateBuckets_eq fuel hnone hnodup hfree
  rw [hashTableCreate] at hcreate
  split at hcreate
  · cases hcreate
  · rename_i hsize
    rw [hbuckets, Option.map_some, Option.some.injEq, Prod.mk.injEq, Option.map_some,
      Option.some.injEq] at hcreate
    obtain ⟨rfl, htable⟩ := hcreate
    have hcapacity : t.capacity = lists.length := by rw [← htable, List.length_map]
    have hlists : t.buckets = lists.map Prod.fst := by rw [← htable, List.nil_append]
    rw [List.nil_append, ← hlists] at hempty
    rw [List.length_map] at hsize
    constructor
    case capacity_pos =>
      rw [hcapacity]
      exact Nat.pos_of_ne_zero fun hzero => hsize (Or.inl hzero)
    case length_eq => rw [hlists, hcapacity, List.length_map]
    case nodup =>
      rw [hlists]
      exact (List.nodup_append.mp hnodup).1
    case contents =>
      refine ⟨_, holdLists_of_empty hempty, by simp, fun i content hcontent data hdata => ?_⟩
      obtain ⟨_, -, rfl⟩ := List.mem_map.mp (List.mem_of_getElem? hcontent)
      cases hdata
    case ne_null => exact fun data hmem => absurd hmem List.not_mem_nil
    case unique => exact fun key => List.Pairwise.nil

end HashTable

/-! ## The runs -/

/-- The memory of a table, and the entries that its calls should give it. -/
structure HashState where
  memory : SllMemory
  entries : List Nat

/-- The calls that change a table; `node` is what `malloc` returns. -/
inductive HashAction where
  | insert (data : Nat) (node : Option Nat)
  | remove (key : Nat)
  deriving DecidableEq, Repr

/-- A call; no loop of it makes more passes than there are entries. -/
def HashState.step (t : HashTable) (s : HashState) : HashAction → Option HashState
  | .insert data node =>
      if node.all (decide <| s.memory.IsFree ·) then
        (t.hashTableInsert s.memory (s.entries.length + 1) node data).map fun (memory, _) =>
          { memory, entries := if node.isSome then data :: s.entries else s.entries }
      else none
  | .remove key =>
      (t.hashTableRemove s.memory (s.entries.length + 1) key).map fun memory =>
        { memory, entries := s.entries.filter fun entry => !t.matchesKey key entry }

/-- The runs of a table from `HashTableCreate` on. -/
def hashTableMachine (t : HashTable) : Machine HashState HashAction where
  start s := ∃ (m : SllMemory) (fuel : Nat) (lists : List (Nat × Nat)),
    (lists.map Prod.fst ++ lists.map Prod.snd).Nodup ∧
    (∀ address ∈ lists.map Prod.fst ++ lists.map Prod.snd, m.IsFree address) ∧
    hashTableCreate m fuel t.keys true true
      (lists.map fun list => (some list.1, some list.2)) = some (s.memory, some t) ∧
    s.entries = []
  step := HashState.step t

/-- The table is a finite map: it finds the one entry that matches a key, and counts its
entries.  An insertion of data that match no entry adds them and returns 0, without memory it
changes nothing and returns 1, and a removal takes out what matches the key. -/
structure HashState.IsMap (t : HashTable) (s : HashState) : Prop where
  ne_null : ∀ data ∈ s.entries, data ≠ 0
  unique : ∀ key, s.entries.Pairwise fun data other =>
    ¬ (t.matchesKey key data ∧ t.matchesKey key other)
  find : ∀ key fuel, key ≠ 0 → s.entries.length < fuel →
    t.hashTableFind s.memory fuel key = some ((s.entries.find? (t.matchesKey key)).getD 0)
  insert : ∀ data node fuel, data ≠ 0 → (∀ entry ∈ s.entries, t.matchesKey data entry = false) →
    s.memory.IsFree node → s.entries.length < fuel →
    ∃ m', t.hashTableInsert s.memory fuel (some node) data = some (m', 0)
  insert_fails : ∀ data fuel, data ≠ 0 →
    (∀ entry ∈ s.entries, t.matchesKey data entry = false) → s.entries.length < fuel →
    t.hashTableInsert s.memory fuel none data = some (s.memory, 1)
  remove : ∀ key fuel, key ≠ 0 → s.entries.length < fuel →
    (t.hashTableRemove s.memory fuel key).isSome
  size : ∀ fuel, s.entries.length < fuel →
    t.hashTableSize s.memory fuel = some s.entries.length
  isEmpty : t.hashTableIsEmpty s.memory = some (s.entries == [])

/-- A table with the entries is a map. -/
theorem HashTable.Holds.isMap {t : HashTable} {s : HashState} (h : t.Holds s.memory s.entries) :
    s.IsMap t where
  ne_null := h.ne_null
  unique := h.unique
  find := fun _ _ hkey hfuel => h.find hkey hfuel
  insert := by
    intro data node fuel hdata hnew hfree hfuel
    obtain ⟨m', hinsert, -⟩ := h.insert hdata hnew hfree hfuel
    exact ⟨m', hinsert⟩
  insert_fails := fun _ _ hdata hnew hfuel => h.insert_fails hdata hnew hfuel
  remove := by
    intro key fuel hkey hfuel
    obtain ⟨m', hremove, -⟩ := h.remove hkey hfuel
    rw [hremove]
    rfl
  size := fun _ hfuel => h.size hfuel
  isEmpty := h.isEmpty

/-- A call keeps the table. -/
theorem HashTable.Holds.step {t : HashTable} {s s' : HashState} {a : HashAction}
    (h : t.Holds s.memory s.entries) (hstep : s.step t a = some s') :
    t.Holds s'.memory s'.entries := by
  have hfuel : s.entries.length < s.entries.length + 1 := Nat.lt_succ_self _
  cases a with
  | insert data node =>
      obtain ⟨hfree, hcall⟩ := Option.ite_none_right_eq_some.mp hstep
      obtain ⟨⟨memory, status⟩, hinsert, rfl⟩ := Option.map_eq_some_iff.mp hcall
      obtain ⟨hdata, hnew⟩ := h.new_of_insert hfuel hinsert
      cases node with
      | none =>
          rw [h.insert_fails hdata hnew hfuel] at hinsert
          obtain ⟨rfl, -⟩ := Prod.mk.inj (Option.some.inj hinsert)
          exact h
      | some node =>
          obtain ⟨m', hinsert', hholds⟩ := h.insert hdata hnew (of_decide_eq_true hfree) hfuel
          rw [hinsert'] at hinsert
          obtain ⟨rfl, -⟩ := Prod.mk.inj (Option.some.inj hinsert)
          exact hholds
  | remove key =>
      obtain ⟨memory, hremove, rfl⟩ := Option.map_eq_some_iff.mp hstep
      obtain ⟨hkey, -⟩ := Option.ite_none_left_eq_some.mp hremove
      obtain ⟨m', hremove', hholds⟩ := h.remove hkey hfuel
      rw [hremove'] at hremove
      obtain rfl := Option.some.inj hremove
      exact hholds

/-- Every run keeps the table. -/
theorem HashTable.holds_of_reached {t : HashTable} {s : HashState}
    (h : (hashTableMachine t).Reached s) : t.Holds s.memory s.entries := by
  refine Machine.ReachedBy.invariant (I := fun s => t.Holds s.memory s.entries) ?_ ?_ h
  · rintro s ⟨m, fuel, lists, hnodup, hfree, hcreate, hentries⟩
    rw [hentries]
    exact HashTable.holds_hashTableCreate hnodup hfree hcreate
  · exact fun s a s' hs _ hstep => hs.step hstep

/-- After every sequence of insertions and removals the table is the map that they should have
left, whatever its capacity and its functions. -/
theorem hashTable_isMap {t : HashTable} {s : HashState} (h : (hashTableMachine t).Reached s) :
    s.IsMap t :=
  (HashTable.holds_of_reached h).isMap

/-- Data that match by their last digit, hashed to it. -/
def lastDigit : HashKeys where
  func data := data % 10
  isMatch data key := if data % 10 = key % 10 then 1 else 0
  consistent := by
    intro data key h
    by_contra hne
    exact h (if_neg hne)
  matches_unique := by
    intro data other key hdata hother
    have hdata' : data % 10 = key % 10 := by
      by_contra hne
      exact hdata (if_neg hne)
    have hother' : other % 10 = key % 10 := by
      by_contra hne
      exact hother (if_neg hne)
    rw [if_pos (hdata'.trans hother'.symm)]
    exact Int.one_ne_zero

/-- Two buckets. -/
def twoBuckets : HashTable := { capacity := 2, keys := lastDigit, buckets := [16, 48] }

/-- The new table in an empty memory. -/
def newTable : HashState :=
  { memory := ((SllMemory.sllCreate ⟨fun _ => none, fun _ => none⟩ (some 16) (some 32)).1.sllCreate
      (some 48) (some 64)).1
    entries := [] }

theorem newTable_start : (hashTableMachine twoBuckets).start newTable :=
  ⟨⟨fun _ => none, fun _ => none⟩, 0, [(16, 32), (48, 64)], by decide, by decide, rfl, rfl⟩

/-- Keys collide, an insertion fails for want of memory, and an entry is removed. -/
theorem hashTable_isMap_twoBuckets :
    ∃ s, (hashTableMachine twoBuckets).run newTable
        [.insert 13 (some 80), .insert 25 (some 96), .insert 14 (some 112), .insert 31 none,
          .remove 113, .insert 23 (some 80)] = some s ∧
      s.entries = [23, 14, 25] ∧ s.IsMap twoBuckets := by
  have hrun : (hashTableMachine twoBuckets).run newTable
      [.insert 13 (some 80), .insert 25 (some 96), .insert 14 (some 112), .insert 31 none,
        .remove 113, .insert 23 (some 80)] = some _ := rfl
  exact ⟨_, hrun, rfl, hashTable_isMap (Machine.Reached.run (.start newTable_start) hrun)⟩

end Ds
end InfinityLabs
