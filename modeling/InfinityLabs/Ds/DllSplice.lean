import InfinityLabs.Ds.DllShape
import InfinityLabs.Lib.Threads

/-!
# Cut and paste between doubly linked lists

`DLLSplice` writes three links in each direction: around the place where the range was, and at
both ends of the place where it goes.  The pieces between these links stay as they are, whether
they belong to one list or to two.
-/

namespace InfinityLabs
namespace Ds

open Lib

/-! ## Cut and paste -/

section Sequences

variable {α β : Type}

/-- The elements of a sequence from the place `i` up to the place `j`. -/
def rangeOf (l : List α) (i j : Nat) : List α := (l.drop i).take (j - i)

/-- A sequence without these elements. -/
def cut (l : List α) (i j : Nat) : List α := l.take i ++ l.drop j

/-- A sequence with a range of elements before the place `k`. -/
def paste (l range : List α) (k : Nat) : List α := l.take k ++ (range ++ l.drop k)

theorem rangeOf_append (l₁ l₂ l₃ : List α) :
    rangeOf (l₁ ++ (l₂ ++ l₃)) l₁.length (l₁.length + l₂.length) = l₂ := by
  rw [rangeOf, Nat.add_sub_cancel_left, List.drop_left, List.take_left]

theorem cut_append (l₁ l₂ l₃ : List α) :
    cut (l₁ ++ (l₂ ++ l₃)) l₁.length (l₁.length + l₂.length) = l₁ ++ l₃ := by
  rw [cut, List.take_left, ← List.append_assoc, ← List.length_append, List.drop_left]

theorem paste_append (l₁ l₂ range : List α) :
    paste (l₁ ++ l₂) range l₁.length = l₁ ++ (range ++ l₂) := by
  rw [paste, List.take_left, List.drop_left]

theorem map_rangeOf (f : α → β) (l : List α) (i j : Nat) :
    (rangeOf l i j).map f = rangeOf (l.map f) i j := by
  rw [rangeOf, rangeOf, List.map_take, List.map_drop]

theorem map_cut (f : α → β) (l : List α) (i j : Nat) :
    (cut l i j).map f = cut (l.map f) i j := by
  rw [cut, cut, List.map_append, List.map_take, List.map_drop]

theorem map_paste (f : α → β) (l range : List α) (k : Nat) :
    (paste l range k).map f = paste (l.map f) (range.map f) k := by
  rw [paste, paste, List.map_append, List.map_append, List.map_take, List.map_drop]

end Sequences

namespace DllMemory

/-- `DLLSplice`. -/
def dllSplice (m : DllMemory) (where_ from_ to_ : Nat) : Option (DllMemory × Nat) := do
  let isEqual ← dllIsEqual from_ to_
  if where_ = 0 ∨ isEqual then none
  else
    let last ← m.dllPrev to_
    let beforeFrom ← m.dllPrev from_
    let m ← m.joinNode beforeFrom to_
    -- read after this link: where `where_` is `to_`, its link back has changed
    let beforeWhere ← m.dllPrev where_
    let m ← m.joinNode beforeWhere from_
    let m ← m.joinNode last where_
    some (m, where_)

/-! ## Pieces -/

/-- Pieces of lists in memory. -/
structure InPieces (m : DllMemory) (pieces : List (List Nat)) : Prop where
  threaded : Threaded m.next m.prev pieces
  allocated : ∀ address ∈ pieces.flatten, (m.node? address).isSome
  ne_zero : ∀ address ∈ pieces.flatten, address ≠ 0

/-- What writes to the links of some nodes, and to the links back of others, keep. -/
structure Relinked (m m' : DllMemory) (lefts rights : List Nat) : Prop where
  next_eq : ∀ address ∉ lefts, m'.next address = m.next address
  prev_eq : ∀ address ∉ rights, m'.prev address = m.prev address
  data_eq : m'.data = m.data
  node?_eq : ∀ address ∉ lefts ++ rights, m'.node? address = m.node? address

variable {m m' m'' : DllMemory} {pieces pieces' : List (List Nat)}
  {firsts lasts lefts rights lefts' rights' : List Nat} {left right x y : Nat}

theorem Relinked.trans (h : m.Relinked m' lefts rights) (h' : m'.Relinked m'' lefts' rights') :
    m.Relinked m'' (lefts ++ lefts') (rights ++ rights') := by
  refine ⟨fun address hmem => ?_, fun address hmem => ?_, h'.data_eq.trans h.data_eq,
    fun address hmem => ?_⟩
  · rw [List.mem_append, not_or] at hmem
    rw [h'.next_eq address hmem.2, h.next_eq address hmem.1]
  · rw [List.mem_append, not_or] at hmem
    rw [h'.prev_eq address hmem.2, h.prev_eq address hmem.1]
  · simp only [List.mem_append, not_or] at hmem
    rw [h'.node?_eq address (by simp [hmem]), h.node?_eq address (by simp [hmem])]

/-- Every node that is not written stays. -/
theorem joinNode_node?_of_ne {other : Nat} (hjoin : m.joinNode left right = some m')
    (hleft : other ≠ left) (hright : other ≠ right) : m'.node? other = m.node? other := by
  obtain ⟨-, hwrites⟩ := Option.ite_none_left_eq_some.mp hjoin
  obtain ⟨node, -, hwrites⟩ := Option.bind_eq_some_iff.mp hwrites
  obtain ⟨node', -, hwrites⟩ := Option.bind_eq_some_iff.mp hwrites
  obtain rfl := Option.some.inj hwrites
  rw [setNode_node?_of_ne _ hright, setNode_node?_of_ne _ hleft]

/-- `JoinNode` from the last place of a piece to the first of one breaks no piece. -/
theorem InPieces.joinNode (h : m.InPieces pieces) (hends : Ends pieces firsts lasts)
    (hleft : left ∈ lasts) (hright : right ∈ firsts) :
    ∃ m', m.joinNode left right = some m' ∧ m'.InPieces pieces ∧
      m.Relinked m' [left] [right] ∧
      m'.next = Function.update m.next left right ∧
      m'.prev = Function.update m.prev right left := by
  obtain ⟨a, ha, hlast⟩ := exists_of_forall₂ hends.lasts hleft
  obtain ⟨b, hb, hfirst⟩ := exists_of_forall₂ hends.firsts hright
  have hleftMem := List.mem_flatten_of_mem ha (List.mem_of_getLast? hlast)
  have hrightMem := List.mem_flatten_of_mem hb (List.mem_of_mem_head? hfirst)
  obtain ⟨m', hjoin, hnext, hprev, hdata, hsome⟩ :=
    joinNode_eq (h.allocated left hleftMem) (h.allocated right hrightMem)
      (h.ne_zero left hleftMem) (h.ne_zero right hrightMem)
  refine ⟨m', hjoin, ⟨?_, fun address hmem => hsome address (h.allocated address hmem),
    h.ne_zero⟩, ⟨fun address hmem => ?_, fun address hmem => ?_, hdata, fun address hmem => ?_⟩,
    hnext, hprev⟩
  · rw [hnext, hprev]
    exact h.threaded.link hends hleft hright
  · rw [hnext, Function.update_of_ne (List.ne_of_not_mem_cons hmem)]
  · rw [hprev, Function.update_of_ne (List.ne_of_not_mem_cons hmem)]
  · simp only [List.mem_append, List.mem_singleton, not_or] at hmem
    exact joinNode_node?_of_ne hjoin hmem.1 hmem.2

/-! ## The three links -/

section Links

variable {where_ from_ to_ last beforeFrom beforeWhere : Nat}

theorem dllPrev_eq (h : (m.node? x).isSome) : m.dllPrev x = some (m.prev x) := by
  rw [dllPrev, node?_eq h, Option.map_some]

/-- `DLLSplice` writes three links, and the three links back. -/
theorem InPieces.splice (h : m.InPieces pieces) (hends : Ends pieces firsts lasts)
    (hlefts : ∀ left ∈ [beforeFrom, beforeWhere, last], left ∈ lasts)
    (hrights : ∀ right ∈ [to_, from_, where_], right ∈ firsts) (hne : from_ ≠ to_)
    (hlast : m.prev to_ = last) (hfrom : m.prev from_ = beforeFrom)
    (hwhere : Function.update m.prev to_ beforeFrom where_ = beforeWhere) :
    ∃ m', m.dllSplice where_ from_ to_ = some (m', where_) ∧ m'.InPieces pieces ∧
      m.Relinked m' [beforeFrom, beforeWhere, last] [to_, from_, where_] ∧
      m'.next = Function.update (Function.update (Function.update m.next beforeFrom to_)
        beforeWhere from_) last where_ ∧
      m'.prev = Function.update (Function.update (Function.update m.prev to_ beforeFrom)
        from_ beforeWhere) where_ last := by
  obtain ⟨hleft₁, hleft₂, hleft₃⟩ : _ ∧ _ ∧ _ := by
    simpa only [List.forall_mem_cons, List.not_mem_nil, false_implies, implies_true, and_true]
      using hlefts
  obtain ⟨hright₁, hright₂, hright₃⟩ : _ ∧ _ ∧ _ := by
    simpa only [List.forall_mem_cons, List.not_mem_nil, false_implies, implies_true, and_true]
      using hrights
  obtain ⟨m₁, hjoin₁, hpieces₁, hkept₁, hnext₁, hprev₁⟩ := h.joinNode hends hleft₁ hright₁
  obtain ⟨m₂, hjoin₂, hpieces₂, hkept₂, hnext₂, hprev₂⟩ :=
    hpieces₁.joinNode hends hleft₂ hright₂
  obtain ⟨m₃, hjoin₃, hpieces₃, hkept₃, hnext₃, hprev₃⟩ :=
    hpieces₂.joinNode hends hleft₃ hright₃
  have hmem : ∀ right ∈ firsts, right ∈ pieces.flatten := fun right hright => by
    obtain ⟨piece, hpiece, hfirst⟩ := exists_of_forall₂ hends.firsts hright
    exact List.mem_flatten_of_mem hpiece (List.mem_of_mem_head? hfirst)
  have hto := hmem to_ hright₁
  have hfromMem := hmem from_ hright₂
  have hwhereMem := hmem where_ hright₃
  refine ⟨m₃, ?_, hpieces₃, (hkept₁.trans hkept₂).trans hkept₃, ?_, ?_⟩
  · have hequal : dllIsEqual from_ to_ = some false := by
      simp only [dllIsEqual, h.ne_zero _ hto, h.ne_zero _ hfromMem, or_self, if_false,
        beq_eq_false_iff_ne.mpr hne]
    have hbeforeWhere : m₁.dllPrev where_ = some beforeWhere := by
      rw [dllPrev_eq (hpieces₁.allocated _ hwhereMem), hprev₁, hwhere]
    simp only [dllSplice, hequal, h.ne_zero _ hwhereMem, dllPrev_eq (h.allocated _ hto),
      dllPrev_eq (h.allocated _ hfromMem), hlast, hfrom, hjoin₁, hbeforeWhere, hjoin₂, hjoin₃,
      Option.bind_eq_bind, Option.bind_some, Bool.false_eq_true, or_self, if_false]
  · rw [hnext₃, hnext₂, hnext₁]
  · rw [hprev₃, hprev₂, hprev₁]

/-- Where the range goes to another place, the three links stand in the end. -/
theorem InPieces.splice_apart (h : m.InPieces pieces) (hends : Ends pieces firsts lasts)
    (hfrom : Joined m.next m.prev beforeFrom from_) (hto : Joined m.next m.prev last to_)
    (hwhere : Joined m.next m.prev beforeWhere where_)
    (hlefts : ∀ left ∈ [beforeFrom, beforeWhere, last], left ∈ lasts)
    (hrights : ∀ right ∈ [to_, from_, where_], right ∈ firsts)
    (hleftsNodup : [beforeFrom, beforeWhere, last].Nodup)
    (hrightsNodup : [to_, from_, where_].Nodup) :
    ∃ m', m.dllSplice where_ from_ to_ = some (m', where_) ∧ m'.InPieces pieces ∧
      m.Relinked m' [beforeFrom, beforeWhere, last] [to_, from_, where_] ∧
      Joined m'.next m'.prev beforeFrom to_ ∧ Joined m'.next m'.prev beforeWhere from_ ∧
      Joined m'.next m'.prev last where_ := by
  simp only [List.nodup_cons, List.mem_cons, List.not_mem_nil, or_false, not_or,
    List.nodup_nil, not_false_iff, and_true] at hleftsNodup hrightsNodup
  obtain ⟨⟨hbeforeNe, hbeforeLast⟩, hwhereLast⟩ := hleftsNodup
  obtain ⟨⟨hfromTo, hwhereTo⟩, hfromWhere⟩ := hrightsNodup
  obtain ⟨m', hsplice, hpieces, hkept, hnext, hprev⟩ :=
    h.splice hends hlefts hrights (Ne.symm hfromTo) hto.2 hfrom.2
      ((Function.update_of_ne (Ne.symm hwhereTo) ..).trans hwhere.2)
  refine ⟨m', hsplice, hpieces, hkept, ?_⟩
  rw [hnext, hprev]
  exact ⟨((joined_update_self ..).update hbeforeNe hfromTo).update hbeforeLast hwhereTo,
    (joined_update_self ..).update hwhereLast hfromWhere, joined_update_self ..⟩

/-- Where the range stays at its place, two links stand in the end. -/
theorem InPieces.splice_same (h : m.InPieces pieces) (hends : Ends pieces firsts lasts)
    (hfrom : Joined m.next m.prev beforeFrom from_) (hto : Joined m.next m.prev last to_)
    (hlefts : ∀ left ∈ [beforeFrom, beforeFrom, last], left ∈ lasts)
    (hrights : ∀ right ∈ [to_, from_, to_], right ∈ firsts) (hleftNe : beforeFrom ≠ last)
    (hrightNe : from_ ≠ to_) :
    ∃ m', m.dllSplice to_ from_ to_ = some (m', to_) ∧ m'.InPieces pieces ∧
      m.Relinked m' [beforeFrom, beforeFrom, last] [to_, from_, to_] ∧
      Joined m'.next m'.prev beforeFrom from_ ∧ Joined m'.next m'.prev last to_ := by
  obtain ⟨m', hsplice, hpieces, hkept, hnext, hprev⟩ :=
    h.splice hends hlefts hrights hrightNe hto.2 hfrom.2 (Function.update_self ..)
  refine ⟨m', hsplice, hpieces, hkept, ?_⟩
  rw [hnext, hprev]
  exact ⟨(joined_update_self ..).update hleftNe hrightNe, joined_update_self ..⟩

end Links

/-! ## Lists as pieces -/

variable {list : Nat} {nodes content : List Nat}

/-- A list is a chain both ways between its sentinels. -/
theorem isDll_iff : m.IsDll list nodes content ↔
    ((places list nodes).IsChain (Joined m.next m.prev) ∧
      (∀ address ∈ places list nodes, address ≠ 0) ∧ m.next (dllTail list) = 0 ∧
      m.prev list = 0) ∧ nodes.map m.data = content ∧
      ∀ address ∈ places list nodes, (m.node? address).isSome := by
  rw [places, ← linked_both_iff]
  constructor
  · rintro ⟨hforward, hbackward, hdata, halloc⟩
    exact ⟨⟨hforward, hbackward⟩, hdata, halloc⟩
  · rintro ⟨⟨hforward, hbackward⟩, hdata, halloc⟩
    exact ⟨hforward, hbackward, hdata, halloc⟩

/-- The pieces of a list. -/
theorem IsDll.inPieces (h : m.IsDll list nodes content)
    (hsplit : places list nodes = pieces.flatten) : m.InPieces pieces := by
  have hnodup := h.forward.nodup
  obtain ⟨⟨hchain, hne, -⟩, -, halloc⟩ := isDll_iff.mp h
  rw [hsplit] at hchain hne halloc hnodup
  exact ⟨threaded_of_isChain hnodup hchain, halloc, hne⟩

/-- Pieces of two lists. -/
theorem InPieces.append (h : m.InPieces pieces) (h' : m.InPieces pieces')
    (hdisjoint : pieces.flatten.Disjoint pieces'.flatten) : m.InPieces (pieces ++ pieces') := by
  refine ⟨h.threaded.append h'.threaded hdisjoint, ?_, ?_⟩
  · rw [List.flatten_append, List.forall_mem_append]
    exact ⟨h.allocated, h'.allocated⟩
  · rw [List.flatten_append, List.forall_mem_append]
    exact ⟨h.ne_zero, h'.ne_zero⟩

/-- Two lists share no node, since the links back from one lead to its head. -/
theorem IsDll.disjoint {list' : Nat} {nodes' content' : List Nat}
    (h : m.IsDll list nodes content) (h' : m.IsDll list' nodes' content') (hne : list ≠ list') :
    (places list nodes).Disjoint (places list' nodes') := by
  intro address hmem hmem'
  have hlast := h.backward.getLast?_eq_of_mem h'.backward (List.mem_reverse.mpr hmem)
    (List.mem_reverse.mpr hmem')
  rw [List.getLast?_reverse, List.getLast?_reverse] at hlast
  exact hne (Option.some.inj hlast)

/-- Pieces that are linked to a list between its sentinels. -/
theorem InPieces.isDll (h : m'.InPieces pieces) (hkept : m.Relinked m' lefts rights)
    (hchain : (places list nodes).IsChain (Joined m'.next m'.prev))
    (hmem : ∀ address ∈ places list nodes, address ∈ pieces.flatten)
    (hnext : m.next (dllTail list) = 0) (hprev : m.prev list = 0)
    (htail : dllTail list ∉ lefts) (hhead : list ∉ rights) :
    m'.IsDll list nodes (nodes.map m.data) := by
  refine isDll_iff.mpr ⟨⟨hchain, fun address hin => h.ne_zero _ (hmem address hin), ?_, ?_⟩, ?_,
    fun address hin => h.allocated _ (hmem address hin)⟩
  · rw [hkept.next_eq _ htail, hnext]
  · rw [hkept.prev_eq _ hhead, hprev]
  · rw [hkept.data_eq]

/-- Only the links between these nodes have changed. -/
structure OnlyRelinks (m m' : DllMemory) (nodes : List Nat) : Prop where
  data_eq : m'.data = m.data
  node?_eq : ∀ address ∉ nodes, m'.node? address = m.node? address

theorem Relinked.only (h : m.Relinked m' lefts rights) (hends : Ends pieces firsts lasts)
    (hlefts : ∀ left ∈ lefts, left ∈ lasts) (hrights : ∀ right ∈ rights, right ∈ firsts) :
    m.OnlyRelinks m' pieces.flatten := by
  refine ⟨h.data_eq, fun address hmem => h.node?_eq address fun hwritten => hmem ?_⟩
  rcases List.mem_append.mp hwritten with hleft | hright
  · obtain ⟨piece, hpiece, hlast⟩ := exists_of_forall₂ hends.lasts (hlefts address hleft)
    exact List.mem_flatten_of_mem hpiece (List.mem_of_getLast? hlast)
  · obtain ⟨piece, hpiece, hfirst⟩ := exists_of_forall₂ hends.firsts (hrights address hright)
    exact List.mem_flatten_of_mem hpiece (List.mem_of_mem_head? hfirst)

/-! ## Ranges of nodes -/

variable {l₁ l₂ range mid : List Nat}

/-- The last of a head and the places behind it. -/
theorem getLast?_cons_getLastD (list : Nat) (l₁ : List Nat) :
    l₁.getLastD list ∈ (list :: l₁).getLast? := by
  rw [List.getLast?_cons, List.getLastD_eq_getLast?]
  exact rfl

/-- The first place up to a tail. -/
theorem headD_mem_head? (l₂ : List Nat) (tail : Nat) :
    l₂.headD tail ∈ (l₂ ++ [tail]).head? := by
  cases l₂ with
  | nil => exact rfl
  | cons a l₂ => exact rfl

theorem headD_append {a tail : Nat} (hfirst : a ∈ range.head?) (l₂ : List Nat) :
    (range ++ l₂).headD tail = a := by
  obtain ⟨l, rfl⟩ := List.head?_eq_some_iff.mp hfirst
  rfl

theorem exists_ends (h : range ≠ []) :
    ∃ first last, first ∈ range.head? ∧ last ∈ range.getLast? :=
  ⟨range.head h, range.getLast h, List.head?_eq_some_head h, List.getLast?_eq_some_getLast h⟩

/-- Two neighbours change places, whether the first goes behind the second or the second before
the first. -/
theorem IsDll.splice_exchange {x y : List Nat} (h : m.IsDll list (l₁ ++ (x ++ (y ++ l₂))) content)
    (hx : x ≠ []) (hy : y ≠ []) {where_ from_ to_ : Nat}
    (hplace : where_ = l₂.headD (dllTail list) ∧ from_ = (x ++ (y ++ l₂)).headD (dllTail list) ∧
        to_ = (y ++ l₂).headD (dllTail list) ∨
      where_ = (x ++ (y ++ l₂)).headD (dllTail list) ∧ from_ = (y ++ l₂).headD (dllTail list) ∧
        to_ = l₂.headD (dllTail list)) :
    ∃ m', m.dllSplice where_ from_ to_ = some (m', where_) ∧
      m'.IsDll list (l₁ ++ (y ++ (x ++ l₂))) ((l₁ ++ (y ++ (x ++ l₂))).map m.data) ∧
      m.OnlyRelinks m' (places list (l₁ ++ (x ++ (y ++ l₂)))) := by
  obtain ⟨xFirst, xLast, hxFirst, hxLast⟩ := exists_ends hx
  obtain ⟨yFirst, yLast, hyFirst, hyLast⟩ := exists_ends hy
  have hbefore := getLast?_cons_getLastD list l₁
  have hbehind := headD_mem_head? l₂ (dllTail list)
  have hsplit : places list (l₁ ++ (x ++ (y ++ l₂))) =
      [list :: l₁, x, y, l₂ ++ [dllTail list]].flatten := by simp [places]
  have hplaces : places list (l₁ ++ (y ++ (x ++ l₂))) =
      [list :: l₁, y, x, l₂ ++ [dllTail list]].flatten := by simp [places]
  have hends : Ends [list :: l₁, x, y, l₂ ++ [dllTail list]] [list, xFirst, yFirst, _]
      [_, xLast, yLast, dllTail list] :=
    ⟨.cons rfl (.cons hxFirst (.cons hyFirst (.cons hbehind .nil))),
      .cons hbefore (.cons hxLast (.cons hyLast (.cons List.getLast?_concat .nil)))⟩
  have hpieces := h.inPieces hsplit
  have hfirsts := hends.nodup_firsts hpieces.threaded.nodup
  have hlasts := hends.nodup_lasts hpieces.threaded.nodup
  obtain ⟨⟨hchain, -, hnext, hprev⟩, -, -⟩ := isDll_iff.mp h
  rw [hsplit] at hchain
  have htoX := joined_of_flatten hchain hbefore hxFirst
  have htoY := joined_of_flatten hchain.right_of_append hxLast hyFirst
  have hto := joined_of_flatten hchain.right_of_append.right_of_append hyLast hbehind
  -- either way the same three links are written
  obtain ⟨m', lefts, rights, hsplice, hpieces', hkept, hlefts, hrights, hjoinedY, hjoinedX,
      hjoined⟩ : ∃ m' lefts rights, m.dllSplice where_ from_ to_ = some (m', where_) ∧
        m'.InPieces [list :: l₁, x, y, l₂ ++ [dllTail list]] ∧ m.Relinked m' lefts rights ∧
        (∀ left ∈ lefts, left ∈ [l₁.getLastD list, xLast, yLast]) ∧
        (∀ right ∈ rights, right ∈ [xFirst, yFirst, l₂.headD (dllTail list)]) ∧
        Joined m'.next m'.prev (l₁.getLastD list) yFirst ∧
        Joined m'.next m'.prev yLast xFirst ∧
        Joined m'.next m'.prev xLast (l₂.headD (dllTail list)) := by
    rw [headD_append hxFirst, headD_append hyFirst] at hplace
    rcases hplace with ⟨rfl, rfl, rfl⟩ | ⟨rfl, rfl, rfl⟩
    · obtain ⟨m', hsplice, hpieces', hkept, hjoined₁, hjoined₂, hjoined₃⟩ :=
        hpieces.splice_apart hends htoX htoY hto (by simp) (by simp) (by grind) (by grind)
      exact ⟨m', _, _, hsplice, hpieces', hkept, by simp, by simp, hjoined₁, hjoined₂, hjoined₃⟩
    · obtain ⟨m', hsplice, hpieces', hkept, hjoined₁, hjoined₂, hjoined₃⟩ :=
        hpieces.splice_apart hends htoY hto htoX (by simp) (by simp) (by grind) (by grind)
      exact ⟨m', _, _, hsplice, hpieces', hkept, by simp, by simp, hjoined₂, hjoined₃, hjoined₁⟩
  refine ⟨m', hsplice, hpieces'.isDll hkept ?_ ?_ hnext hprev ?_ ?_, ?_⟩
  · have hpiece := hpieces'.threaded.chain
    simp only [List.forall_mem_cons] at hpiece
    rw [hplaces]
    exact isChain_flatten_cons hpiece.1 (isChain_flatten_cons hpiece.2.2.1
      (isChain_flatten_cons hpiece.2.1 (by simpa using hpiece.2.2.2.1) hxLast hbehind hjoined)
      hyLast hxFirst hjoinedX) hbefore hyFirst hjoinedY
  · intro address hmem
    rw [hplaces] at hmem
    grind
  · grind
  · grind
  · rw [hsplit]
    exact hkept.only hends (by grind) (by grind)

/-- A range stays at its place. -/
theorem IsDll.splice_same (h : m.IsDll list (l₁ ++ (range ++ l₂)) content) (hrange : range ≠ []) :
    ∃ m', m.dllSplice (l₂.headD (dllTail list)) ((range ++ l₂).headD (dllTail list))
        (l₂.headD (dllTail list)) = some (m', l₂.headD (dllTail list)) ∧
      m'.IsDll list (l₁ ++ (range ++ l₂)) ((l₁ ++ (range ++ l₂)).map m.data) ∧
      m.OnlyRelinks m' (places list (l₁ ++ (range ++ l₂))) := by
  obtain ⟨from_, last, hfrom, hlast⟩ := exists_ends hrange
  have hbeforeFrom := getLast?_cons_getLastD list l₁
  have hto := headD_mem_head? l₂ (dllTail list)
  have hsplit : places list (l₁ ++ (range ++ l₂)) =
      [list :: l₁, range, l₂ ++ [dllTail list]].flatten := by simp [places]
  have hends : Ends [list :: l₁, range, l₂ ++ [dllTail list]] [list, from_, _]
      [_, last, dllTail list] :=
    ⟨.cons rfl (.cons hfrom (.cons hto .nil)),
      .cons hbeforeFrom (.cons hlast (.cons List.getLast?_concat .nil))⟩
  have hpieces := h.inPieces hsplit
  have hfirsts := hends.nodup_firsts hpieces.threaded.nodup
  have hlasts := hends.nodup_lasts hpieces.threaded.nodup
  obtain ⟨⟨hchain, -, hnext, hprev⟩, -, -⟩ := isDll_iff.mp h
  rw [hsplit] at hchain
  obtain ⟨m', hsplice, hpieces', hkept, hjoined₁, hjoined₂⟩ :=
    hpieces.splice_same hends (joined_of_flatten hchain hbeforeFrom hfrom)
      (joined_of_flatten hchain.right_of_append hlast hto) (by simp) (by simp)
      (by grind) (by grind)
  refine ⟨m', ?_, hpieces'.isDll hkept ?_ ?_ hnext hprev ?_ ?_, ?_⟩
  · rw [headD_append hfrom]
    exact hsplice
  · have hpiece := hpieces'.threaded.chain
    simp only [List.forall_mem_cons] at hpiece
    rw [hsplit]
    exact isChain_flatten_cons hpiece.1 (isChain_flatten_cons hpiece.2.1
      (by simpa using hpiece.2.2.1) hlast hto hjoined₂) hbeforeFrom hfrom hjoined₁
  · rw [hsplit]
    exact fun address hmem => hmem
  · grind
  · grind
  · rw [hsplit]
    exact hkept.only hends (by simp) (by simp)

/-- A range of one list goes to a place of another. -/
theorem IsDll.splice_other {dest src : Nat} {d₁ d₂ s₁ s₂ content' : List Nat}
    (hdest : m.IsDll dest (d₁ ++ d₂) content)
    (hsrc : m.IsDll src (s₁ ++ (range ++ s₂)) content') (hne : dest ≠ src) (hrange : range ≠ []) :
    ∃ m', m.dllSplice (d₂.headD (dllTail dest)) ((range ++ s₂).headD (dllTail src))
        (s₂.headD (dllTail src)) = some (m', d₂.headD (dllTail dest)) ∧
      m'.IsDll dest (d₁ ++ (range ++ d₂)) ((d₁ ++ (range ++ d₂)).map m.data) ∧
      m'.IsDll src (s₁ ++ s₂) ((s₁ ++ s₂).map m.data) ∧
      m.OnlyRelinks m' (places dest (d₁ ++ d₂) ++ places src (s₁ ++ (range ++ s₂))) := by
  obtain ⟨from_, last, hfrom, hlast⟩ := exists_ends hrange
  have hbeforeFrom := getLast?_cons_getLastD src s₁
  have hbeforeWhere := getLast?_cons_getLastD dest d₁
  have hto := headD_mem_head? s₂ (dllTail src)
  have hwhere := headD_mem_head? d₂ (dllTail dest)
  have hsplitDest : places dest (d₁ ++ d₂) = [dest :: d₁, d₂ ++ [dllTail dest]].flatten := by
    simp [places]
  have hsplitSrc : places src (s₁ ++ (range ++ s₂)) =
      [src :: s₁, range, s₂ ++ [dllTail src]].flatten := by simp [places]
  have hplacesDest : places dest (d₁ ++ (range ++ d₂)) =
      [dest :: d₁, range, d₂ ++ [dllTail dest]].flatten := by simp [places]
  have hplacesSrc : places src (s₁ ++ s₂) = [src :: s₁, s₂ ++ [dllTail src]].flatten := by
    simp [places]
  have hends : Ends ([dest :: d₁, d₂ ++ [dllTail dest]] ++
      [src :: s₁, range, s₂ ++ [dllTail src]]) [dest, _, src, from_, _]
      [_, dllTail dest, _, last, dllTail src] :=
    ⟨.cons rfl (.cons hwhere (.cons rfl (.cons hfrom (.cons hto .nil)))),
      .cons hbeforeWhere (.cons List.getLast?_concat
        (.cons hbeforeFrom (.cons hlast (.cons List.getLast?_concat .nil))))⟩
  have hdisjoint := hdest.disjoint hsrc hne
  rw [hsplitDest, hsplitSrc] at hdisjoint
  have hpieces := (hdest.inPieces hsplitDest).append (hsrc.inPieces hsplitSrc) hdisjoint
  have hfirsts := hends.nodup_firsts hpieces.threaded.nodup
  have hlasts := hends.nodup_lasts hpieces.threaded.nodup
  obtain ⟨⟨hchainDest, -, hnextDest, hprevDest⟩, -, -⟩ := isDll_iff.mp hdest
  obtain ⟨⟨hchainSrc, -, hnextSrc, hprevSrc⟩, -, -⟩ := isDll_iff.mp hsrc
  rw [hsplitDest] at hchainDest
  rw [hsplitSrc] at hchainSrc
  obtain ⟨m', hsplice, hpieces', hkept, hjoined₁, hjoined₂, hjoined₃⟩ :=
    hpieces.splice_apart hends (joined_of_flatten hchainSrc hbeforeFrom hfrom)
      (joined_of_flatten hchainSrc.right_of_append hlast hto)
      (joined_of_flatten hchainDest hbeforeWhere hwhere)
      (by simp) (by simp) (by grind) (by grind)
  have hpiece := hpieces'.threaded.chain
  simp only [List.cons_append, List.nil_append, List.forall_mem_cons] at hpiece
  refine ⟨m', ?_, hpieces'.isDll hkept ?_ ?_ hnextDest hprevDest ?_ ?_,
    hpieces'.isDll hkept ?_ ?_ hnextSrc hprevSrc ?_ ?_, ?_⟩
  · rw [headD_append hfrom]
    exact hsplice
  · rw [hplacesDest]
    exact isChain_flatten_cons hpiece.1 (isChain_flatten_cons hpiece.2.2.2.1
      (by simpa using hpiece.2.1) hlast hwhere hjoined₃) hbeforeWhere hfrom hjoined₂
  · intro address hmem
    rw [hplacesDest] at hmem
    grind
  · grind
  · grind
  · rw [hplacesSrc]
    exact isChain_flatten_cons hpiece.2.2.1 (by simpa using hpiece.2.2.2.2.1) hbeforeFrom hto
      hjoined₁
  · intro address hmem
    rw [hplacesSrc] at hmem
    grind
  · grind
  · grind
  · rw [hsplitDest, hsplitSrc, ← List.flatten_append]
    exact hkept.only hends (by simp) (by simp)

/-! ## Every position -/

/-- The range of `src` from the place `i` up to the place `j` has been cut out, and stands before
the place `k` of `dest`, which is counted before the cut. -/
def CutAndPasted (m : DllMemory) (dest : Nat) (dn dc : List Nat) (src : Nat) (sn sc : List Nat)
    (i j k : Nat) : Prop :=
  if dest = src then
    m.IsDll src (paste (cut sn i j) (rangeOf sn i j) (if k < i then k else k - (j - i)))
      (paste (cut sc i j) (rangeOf sc i j) (if k < i then k else k - (j - i)))
  else
    m.IsDll dest (paste dn (rangeOf sn i j) k) (paste dc (rangeOf sc i j) k) ∧
      m.IsDll src (cut sn i j) (cut sc i j)

/-- Within one list, whether the place comes before the range, right behind it or later. -/
theorem IsDll.splice_within {i j k where_ from_ to_ : Nat} (h : m.IsDll list nodes content)
    (hij : i < j) (hwhere : m.iterAt list k = some where_) (hfrom : m.iterAt list i = some from_)
    (hto : m.iterAt list j = some to_) (houtside : k < i ∨ j ≤ k) :
    ∃ m' nodes', m.dllSplice where_ from_ to_ = some (m', where_) ∧
      nodes' = paste (cut nodes i j) (rangeOf nodes i j) (if k < i then k else k - (j - i)) ∧
      m'.IsDll list nodes' (nodes'.map m.data) ∧ m.OnlyRelinks m' (places list nodes) := by
  obtain ⟨l₁, range, l₂, rfl, rfl, rfl, rfl, rfl⟩ :=
    h.exists_range_of_iterAt (Nat.le_of_lt hij) hfrom hto
  have hrange : range ≠ [] := List.ne_nil_of_length_pos (by omega)
  rw [cut_append, rangeOf_append, Nat.add_sub_cancel_left]
  rcases houtside with hbefore | hafter
  · rw [if_pos hbefore]
    obtain ⟨l₁, mid, rfl, rfl⟩ := exists_append_of_le (Nat.le_of_lt hbefore)
    rw [List.length_append] at hbefore
    have hmid : mid ≠ [] := List.ne_nil_of_length_pos (by omega)
    have h' : m.IsDll list (l₁ ++ (mid ++ (range ++ l₂))) content := by rwa [List.append_assoc] at h
    obtain rfl := Option.some.inj (h'.iterAt_split.symm.trans hwhere)
    rw [List.append_assoc, List.append_assoc, paste_append]
    obtain ⟨m', hsplice, hlist, honly⟩ :=
      h'.splice_exchange hmid hrange (Or.inr ⟨rfl, rfl, rfl⟩)
    exact ⟨m', _, hsplice, rfl, hlist, honly⟩
  · rw [if_neg (by omega)]
    obtain ⟨mid, l₂, rfl, hlength⟩ : ∃ mid rest, l₂ = mid ++ rest ∧
        mid.length = k - (l₁.length + range.length) := by
      refine exists_append_of_le ?_
      have hk := h.le_of_iterAt hwhere
      rw [List.length_append, List.length_append] at hk
      omega
    obtain rfl : k = (l₁ ++ range ++ mid).length := by
      rw [List.length_append, List.length_append]
      omega
    have hatWhere : m.IsDll list ((l₁ ++ range ++ mid) ++ l₂) content := by
      rwa [List.append_assoc, List.append_assoc]
    obtain rfl := Option.some.inj (hatWhere.iterAt_split.symm.trans hwhere)
    have hplace : (l₁ ++ range ++ mid).length - range.length = (l₁ ++ mid).length := by
      simp only [List.length_append]
      omega
    rw [hplace, ← List.append_assoc l₁ mid, paste_append, List.append_assoc l₁ mid]
    by_cases hmid : mid = []
    case pos =>
      subst hmid
      obtain ⟨m', hsplice, hlist, honly⟩ := h.splice_same hrange
      exact ⟨m', _, hsplice, rfl, hlist, honly⟩
    case neg =>
      obtain ⟨m', hsplice, hlist, honly⟩ :=
        h.splice_exchange hrange hmid (Or.inl ⟨rfl, rfl, rfl⟩)
      exact ⟨m', _, hsplice, rfl, hlist, honly⟩

/-- `DLLSplice` cuts a range out of a list and pastes it before a place of the same list that is
not in the range, or of another list; it changes no data, and no node of any other list. -/
theorem dllSplice_cutsAndPastes {m : DllMemory} {dest src : Nat} {dn dc sn sc : List Nat}
    {i j k where_ from_ to_ : Nat} (hdest : m.IsDll dest dn dc) (hsrc : m.IsDll src sn sc)
    (hij : i < j) (hwhere : m.iterAt dest k = some where_) (hfrom : m.iterAt src i = some from_)
    (hto : m.iterAt src j = some to_) (houtside : dest = src → k < i ∨ j ≤ k) :
    ∃ m', m.dllSplice where_ from_ to_ = some (m', where_) ∧
      m'.CutAndPasted dest dn dc src sn sc i j k ∧
      m.OnlyRelinks m' (places dest dn ++ places src sn) := by
  by_cases hsame : dest = src
  case pos =>
    subst hsame
    obtain ⟨m', nodes', hsplice, rfl, hlist, honly⟩ :=
      hsrc.splice_within hij hwhere hfrom hto (houtside rfl)
    refine ⟨m', hsplice, ?_, honly.data_eq, fun address hmem => honly.node?_eq address fun hin =>
      hmem (List.mem_append_right _ hin)⟩
    rwa [CutAndPasted, if_pos rfl, ← hsrc.data_eq, ← map_cut, ← map_rangeOf, ← map_paste]
  case neg =>
    obtain ⟨s₁, range, s₂, rfl, rfl, rfl, rfl, rfl⟩ :=
      hsrc.exists_range_of_iterAt (Nat.le_of_lt hij) hfrom hto
    have hrange : range ≠ [] := List.ne_nil_of_length_pos (by omega)
    obtain ⟨d₁, d₂, rfl, rfl, rfl⟩ := hdest.exists_split_of_iterAt hwhere
    obtain ⟨m', hsplice, hdest', hsrc', honly⟩ := hdest.splice_other hsrc hsame hrange
    refine ⟨m', hsplice, ?_, honly⟩
    rw [CutAndPasted, if_neg hsame, ← hdest.data_eq, ← hsrc.data_eq, ← map_rangeOf, ← map_paste,
      ← map_cut, rangeOf_append, paste_append, cut_append]
    exact ⟨hdest', hsrc'⟩

/-- A list of two nodes, and one of three. -/
def twoLists : DllMemory :=
  { node? := fun address =>
      match address with
      | 16 => some { data := 0, next := 100, prev := 0 }
      | 100 => some { data := 1, next := 200, prev := 16 }
      | 200 => some { data := 2, next := 40, prev := 100 }
      | 40 => some { data := 0, next := 0, prev := 200 }
      | 64 => some { data := 0, next := 300, prev := 0 }
      | 300 => some { data := 3, next := 400, prev := 64 }
      | 400 => some { data := 4, next := 500, prev := 300 }
      | 500 => some { data := 5, next := 88, prev := 400 }
      | 88 => some { data := 0, next := 0, prev := 500 }
      | _ => none }

theorem isDll_twoLists_dest : twoLists.IsDll 16 [100, 200] [1, 2] where
  forward := ⟨rfl, by decide, rfl, by decide, rfl, by decide, rfl, by decide, rfl⟩
  backward := ⟨rfl, by decide, rfl, by decide, rfl, by decide, rfl, by decide, rfl⟩
  data_eq := rfl
  allocated := by decide

theorem isDll_twoLists_src : twoLists.IsDll 64 [300, 400, 500] [3, 4, 5] where
  forward := ⟨rfl, by decide, rfl, by decide, rfl, by decide, rfl, by decide, rfl, by decide, rfl⟩
  backward := ⟨rfl, by decide, rfl, by decide, rfl, by decide, rfl, by decide, rfl, by decide, rfl⟩
  data_eq := rfl
  allocated := by decide

/-- The first two nodes of the one go between the nodes of the other. -/
theorem dllSplice_cutsAndPastes_twoLists :
    ∃ m', twoLists.dllSplice 200 300 500 = some (m', 200) ∧
      m'.CutAndPasted 16 [100, 200] [1, 2] 64 [300, 400, 500] [3, 4, 5] 0 2 1 ∧
      twoLists.OnlyRelinks m' (places 16 [100, 200] ++ places 64 [300, 400, 500]) :=
  dllSplice_cutsAndPastes isDll_twoLists_dest isDll_twoLists_src (by decide) rfl rfl rfl
    (fun h => absurd h (by decide))

end DllMemory

end Ds
end InfinityLabs
