import SegregatedFit.Consistency.Listing
import SegregatedFit.Proofs.Heap.Search

/-
  Walks of the free lists that find nothing wrong.

  Such a walk has followed a ring and met no node twice, so
  the listing knows the list of every node.  Conversely the
  walks go through any given rings from end to end.

  Key definitions include:
    * `Listing.file`
    * `SentinelTable.ringWalk`
    * `SentinelTable.Walkable`

  Key theorems include:
    * `SentinelTable.walkFrom_sound`
    * `SentinelTable.walkLists_sound`
    * `SentinelTable.walkClasses_of_rings`
-/

namespace SegregatedFit

------------------------------------------------------------
-- Filing Nodes
------------------------------------------------------------

namespace Listing

/- The listing after the nodes of a list are filed in a class. -/
def file
    (listing : Listing)
    (c : Nat) :
    List Nat → Listing
| [] => listing
| node :: nodes => file (listing.insert node c) c nodes

/- A node that is filed has its class, and no other one does. -/
theorem getElem?_insert_eq
    (listing : Listing)
    (node c x : Nat) :
    (listing.insert node c)[x]? =
      if x = node then some c else listing[x]? := by
  rw [Std.TreeMap.getElem?_insert]
  simp only [Nat.compare_eq_eq, eq_comm (a := x)]

/- Filed nodes have their class, and all others keep theirs. -/
theorem getElem?_file
    (listing : Listing)
    (c x : Nat)
    (nodes : List Nat) :
    (listing.file c nodes)[x]? =
      if x ∈ nodes then some c else listing[x]? := by
  induction nodes generalizing listing with
  | nil => simp [file]
  | cons node nodes ih =>
      rw [file, ih, getElem?_insert_eq]
      by_cases hRest : x ∈ nodes
      · rw [if_pos hRest,
          if_pos (List.mem_cons_of_mem node hRest)]
      · simp only [hRest, List.mem_cons, or_false, if_false]

/- The listing after the nodes of several lists are filed. -/
def fileAll
    (listing : Listing)
    (lists : Nat → List Nat) :
    List Nat → Listing
| [] => listing
| c :: cs => fileAll (listing.file c (lists c)) lists cs

/-
  If the lists have no node in common, each of their nodes is
  filed in the class of its list.
-/
theorem getElem?_fileAll
    {listing : Listing}
    {lists : Nat → List Nat}
    {cs : List Nat}
    {c x : Nat}
    (hDisjoint : cs.Pairwise (fun c d =>
      (lists c).Disjoint (lists d)))
    (hFresh : ∀ c ∈ cs, ∀ x ∈ lists c, listing[x]? = none) :
    (listing.fileAll lists cs)[x]? = some c ↔
      (c ∈ cs ∧ x ∈ lists c) ∨ listing[x]? = some c := by
  induction cs generalizing listing with
  | nil => simp [fileAll]
  | cons d cs ih =>
      rw [List.pairwise_cons] at hDisjoint
      have hNone := hFresh d List.mem_cons_self x
      rw [fileAll, ih hDisjoint.2, getElem?_file]
      · by_cases hx : x ∈ lists d
        · rw [if_pos hx, hNone hx]
          simp only [Option.some.injEq, List.mem_cons]
          constructor
          · rintro (h | rfl)
            · exact Or.inl ⟨Or.inr h.1, h.2⟩
            · exact Or.inl ⟨Or.inl rfl, hx⟩
          · rintro (⟨rfl | h, _⟩ | h)
            · exact Or.inr rfl
            · exact Or.inl ⟨h, by assumption⟩
            · cases h
        · rw [if_neg hx, List.mem_cons]
          constructor
          · rintro (h | h)
            · exact Or.inl ⟨Or.inr h.1, h.2⟩
            · exact Or.inr h
          · rintro (⟨rfl | h, h'⟩ | h)
            · exact absurd h' hx
            · exact Or.inl ⟨h, h'⟩
            · exact Or.inr h
      · intro e he y hy
        rw [getElem?_file, if_neg]
        · exact hFresh e (List.mem_cons_of_mem d he) y hy
        · exact fun h => hDisjoint.1 e he h hy

/- Nodes that were not met have no class. -/
theorem contains_eq_false_iff
    {listing : Listing}
    {node : Nat} :
    listing.contains node = false ↔ listing[node]? = none := by
  rw [Std.TreeMap.contains_eq_isSome_getElem?,
    Option.isSome_eq_false_iff, Option.isNone_iff_eq_none]

end Listing

------------------------------------------------------------
-- Walks without Violations
------------------------------------------------------------

/- A back link is in order if it names the node in front. -/
theorem backLinkViolations_eq_nil_iff
    {c previous node back : Nat} :
    backLinkViolations c previous node back = [] ↔
      back = previous := by
  unfold backLinkViolations
  simp

namespace SentinelTable

variable {table : SentinelTable}
variable {m : Memory}
variable {c steps : Nat}
variable {listing after : Listing}

/- At the sentinel a walk ends, however many steps are left. -/
theorem walkFrom_sentinel
    (steps : Nat) :
    table.walkFrom m c steps (table.sentinel c) listing =
      (do
        let previous ← m.previousLink (table.sentinel c)
        return (
          { sizeClass := c, nodes := [],
            stop := .sentinel previous }, listing)) := by
  cases steps with
  | zero => rw [walkFrom, if_pos rfl]
  | succ steps => rw [walkFrom, if_pos rfl]

/-
  A walk ends where it begins, at the sentinel or with a
  violation, or it goes on from a node that was not met yet.
-/
theorem walkFrom_cases
    {node : Nat}
    {walk : ListWalk}
    (hWalk : table.walkFrom m c steps node listing =
      .ok (walk, after)) :
    (∃ back,
      node = table.sentinel c ∧
      m.previousLink node = .ok back ∧
      after = listing ∧
      walk = ListWalk.mk c [] (.sentinel back)) ∨
    (∃ stop,
      (∀ back, stop ≠ .sentinel back) ∧
      walk = ListWalk.mk c [] stop) ∨
    ∃ fewer back header next rest,
      steps = fewer + 1 ∧
      m.previousLink node = .ok back ∧
      listing[node]? = none ∧
      m.nextLink node = .ok next ∧
      table.walkFrom m c fewer next (listing.insert node c) =
        .ok (rest, after) ∧
      walk = { rest with
        nodes := ListNode.mk node back header :: rest.nodes } := by
  by_cases hEnd : node = table.sentinel c
  · subst hEnd
    rw [walkFrom_sentinel, Fault.bind_eq_ok_iff] at hWalk
    rcases hWalk with ⟨back, hBack, hResult⟩
    cases hResult
    exact Or.inl ⟨back, rfl, hBack, rfl, rfl⟩
  · right
    cases steps with
    | zero =>
        rw [walkFrom, if_neg hEnd] at hWalk
        cases hWalk
        exact Or.inl ⟨_, by simp, rfl⟩
    | succ fewer =>
        rw [walkFrom, if_neg hEnd] at hWalk
        dsimp only at hWalk
        by_cases hNode : table.isNode m node = true
        · rw [if_pos hNode, Fault.bind_eq_ok_iff] at hWalk
          rcases hWalk with ⟨back, hBack, hWalk⟩
          by_cases hMet : listing.contains node = true
          · rw [if_pos hMet] at hWalk
            cases hWalk
            exact Or.inl ⟨_, by simp, rfl⟩
          · rw [if_neg hMet, Fault.bind_eq_ok_iff] at hWalk
            rcases hWalk with ⟨header, _, hWalk⟩
            rw [Fault.bind_eq_ok_iff] at hWalk
            rcases hWalk with ⟨next, hNext, hWalk⟩
            rw [Fault.bind_eq_ok_iff] at hWalk
            rcases hWalk with ⟨⟨rest, filed⟩, hRest, hResult⟩
            cases hResult
            have hFresh := Listing.contains_eq_false_iff.1
              (Bool.eq_false_iff.2 hMet)
            exact Or.inr ⟨fewer, back, header, next, rest,
              rfl, hBack, hFresh, hNext, hRest, rfl⟩
        · rw [if_neg hNode] at hWalk
          cases hWalk
          exact Or.inl ⟨_, by simp, rfl⟩

/- A walk knows the class that it was meant for. -/
theorem sizeClass_of_walkFrom
    {node : Nat}
    {walk : ListWalk}
    (hWalk : table.walkFrom m c steps node listing =
      .ok (walk, after)) :
    walk.sizeClass = c := by
  induction steps generalizing node listing after walk with
  | zero =>
      rcases walkFrom_cases hWalk with
        ⟨_, _, _, _, rfl⟩ | ⟨_, _, rfl⟩ |
          ⟨_, _, _, _, _, hSteps, _⟩
      · rfl
      · rfl
      · cases hSteps
  | succ steps ih =>
      rcases walkFrom_cases hWalk with
        ⟨_, _, _, _, rfl⟩ | ⟨_, _, rfl⟩ |
          ⟨_, _, _, _, _, hSteps, _, _, _, hRest, rfl⟩
      · rfl
      · rfl
      · cases hSteps
        have hClass := ih hRest
        exact hClass

/- A walk that ends early has a violation. -/
theorem listViolations_ne_nil
    {sentinel previous : Nat}
    {stop : ListEnd}
    (hStop : ∀ back, stop ≠ .sentinel back) :
    listViolations c sentinel stop previous [] ≠ [] := by
  cases stop with
  | sentinel back => exact absurd rfl (hStop back)
  | broken => simp [listViolations]
  | repeated offset back => simp [listViolations]

/-
  A walk without violations leads along linked nodes to the
  sentinel.  It meets no node twice and none that an earlier
  walk has met, and it files them all.
-/
theorem walkFrom_sound
    {previous node : Nat}
    {walk : ListWalk}
    (hNext : m.nextLink previous = .ok node)
    (hWalk : table.walkFrom m c steps node listing =
      .ok (walk, after))
    (hClean : listViolations c (table.sentinel c) walk.stop
      previous walk.nodes = []) :
    ∃ nodes : List Nat,
      m.Links (previous :: (nodes ++ [table.sentinel c])) ∧
      nodes.Nodup ∧
      (∀ x ∈ nodes, listing[x]? = none) ∧
      after = listing.file c nodes := by
  induction steps generalizing previous node listing after walk
    with
  | zero =>
      rcases walkFrom_cases hWalk with
        ⟨back, rfl, hBack, rfl, rfl⟩ | ⟨stop, hStop, rfl⟩ |
          ⟨_, _, _, _, _, hSteps, _⟩
      · rw [listViolations,
          backLinkViolations_eq_nil_iff] at hClean
        subst hClean
        exact ⟨[], ⟨hNext, hBack, trivial⟩, List.nodup_nil,
          by simp, rfl⟩
      · exact absurd hClean (listViolations_ne_nil hStop)
      · cases hSteps
  | succ steps ih =>
      rcases walkFrom_cases hWalk with
        ⟨back, rfl, hBack, rfl, rfl⟩ | ⟨stop, hStop, rfl⟩ |
          ⟨_, back, header, next, rest, hSteps, hBack, hNew,
            hNextNode, hRest, rfl⟩
      · rw [listViolations,
          backLinkViolations_eq_nil_iff] at hClean
        subst hClean
        exact ⟨[], ⟨hNext, hBack, trivial⟩, List.nodup_nil,
          by simp, rfl⟩
      · exact absurd hClean (listViolations_ne_nil hStop)
      · cases hSteps
        rw [listViolations, List.append_eq_nil_iff,
          backLinkViolations_eq_nil_iff] at hClean
        rcases hClean with ⟨rfl, hClean⟩
        rcases ih hNextNode hRest hClean with
          ⟨nodes, hLinks, hNodup, hFresh, hFiled⟩
        -- The rest was walked with this node on file.
        have hOthers : ∀ x ∈ nodes,
            x ≠ node ∧ listing[x]? = none := by
          intro x hx
          have hNone := hFresh x hx
          rw [Listing.getElem?_insert_eq] at hNone
          by_cases hEq : x = node
          · rw [if_pos hEq] at hNone
            cases hNone
          · rw [if_neg hEq] at hNone
            exact ⟨hEq, hNone⟩
        refine ⟨node :: nodes, ⟨hNext, hBack, hLinks⟩,
          ?_, ?_, hFiled⟩
        · rw [List.nodup_cons]
          exact ⟨fun h => (hOthers node h).1 rfl, hNodup⟩
        · intro x hx
          rcases List.mem_cons.1 hx with rfl | hx
          · exact hNew
          · exact (hOthers x hx).2

/-
  If the walks of some classes find nothing wrong, each of
  the lists is a ring, and the nodes that are filed in a
  class are those of its ring.
-/
theorem walkClasses_sound
    {cs : List Nat}
    {walks : List ListWalk}
    (hDistinct : cs.Nodup)
    (hBefore : ∀ c ∈ cs, ∀ x : Nat, listing[x]? ≠ some c)
    (hWalk : table.walkClasses m cs listing =
      .ok (walks, after))
    (hClean : walks.flatMap (ListWalk.violations table) = []) :
    (∀ c ∈ cs, ∃ nodes : List Nat,
      m.Ring (table.sentinel c) nodes ∧
      nodes.Nodup ∧
      ∀ x : Nat, after[x]? = some c ↔ x ∈ nodes) ∧
    ∀ c, c ∉ cs → ∀ x : Nat,
      after[x]? = some c ↔ listing[x]? = some c := by
  induction cs generalizing listing after walks with
  | nil =>
      cases hWalk
      exact ⟨by simp, fun _ _ _ => Iff.rfl⟩
  | cons c cs ih =>
      rw [List.nodup_cons] at hDistinct
      rw [walkClasses, Fault.bind_eq_ok_iff] at hWalk
      rcases hWalk with ⟨head, hHead, hWalk⟩
      rw [Fault.bind_eq_ok_iff] at hWalk
      rcases hWalk with ⟨⟨walk, filed⟩, hFirst, hWalk⟩
      rw [Fault.bind_eq_ok_iff] at hWalk
      rcases hWalk with ⟨⟨others, last⟩, hOthers, hResult⟩
      cases hResult
      rw [List.flatMap_cons, List.append_eq_nil_iff,
        ListWalk.violations, sizeClass_of_walkFrom hFirst]
        at hClean
      rcases walkFrom_sound hHead hFirst hClean.1 with
        ⟨nodes, hLinks, hNodup, hFresh, rfl⟩
      -- Nothing but the nodes of this list was filed.
      have hOwn : ∀ x : Nat,
          (listing.file c nodes)[x]? = some c ↔ x ∈ nodes := by
        intro x
        have hNone := hBefore c List.mem_cons_self x
        rw [Listing.getElem?_file]
        by_cases hx : x ∈ nodes
        · simp [hx]
        · simp [hx, hNone]
      have hKept : ∀ d, d ≠ c → ∀ x : Nat,
          (listing.file c nodes)[x]? = some d ↔
            listing[x]? = some d := by
        intro d hNe x
        rw [Listing.getElem?_file]
        by_cases hx : x ∈ nodes
        · simp [hx, hFresh x hx, Ne.symm hNe]
        · simp [hx]
      have hNe : ∀ d ∈ cs, d ≠ c := by
        intro d hd hEq
        exact hDistinct.1 (hEq ▸ hd)
      rcases ih hDistinct.2
          (fun d hd x h => hBefore d
            (List.mem_cons_of_mem c hd) x
            ((hKept d (hNe d hd) x).1 h))
          hOthers hClean.2 with
        ⟨hRings, hRest⟩
      refine ⟨?_, ?_⟩
      · intro d hd
        rcases List.mem_cons.1 hd with rfl | hd
        · exact ⟨nodes, hLinks, hNodup, fun x =>
            (hRest d hDistinct.1 x).trans (hOwn x)⟩
        · exact hRings d hd
      · intro d hd x
        rw [List.mem_cons, not_or] at hd
        exact (hRest d hd.2 x).trans (hKept d hd.1 x)

/-
  If the walks of all lists find nothing wrong, the lists are
  rings, and the listing holds the nodes of each ring with
  its class and nothing else.
-/
theorem walkLists_sound
    {walks : List ListWalk}
    (hWalk : table.walkLists m = .ok (walks, after))
    (hClean : walks.flatMap (ListWalk.violations table) = []) :
    ∃ lists : Nat → List Nat,
      (∀ c, c < SizeClass.count →
        m.Ring (table.sentinel c) (lists c) ∧
          (lists c).Nodup) ∧
      ∀ x c : Nat, after[x]? = some c ↔
        c < SizeClass.count ∧ x ∈ lists c := by
  rcases walkClasses_sound (by decide) (by simp) hWalk hClean
    with ⟨hRings, hRest⟩
  have hNodes : ∀ c, ∃ nodes : List Nat,
      c < SizeClass.count →
        m.Ring (table.sentinel c) nodes ∧ nodes.Nodup ∧
          ∀ x : Nat, after[x]? = some c ↔ x ∈ nodes := by
    intro c
    by_cases hc : c < SizeClass.count
    · rcases hRings c (SizeClass.mem_all_iff.2 hc) with
        ⟨nodes, hNodes⟩
      exact ⟨nodes, fun _ => hNodes⟩
    · exact ⟨[], fun h => absurd h hc⟩
  choose lists hLists using hNodes
  refine ⟨lists, ?_, ?_⟩
  · intro c hc
    exact ⟨(hLists c hc).1, (hLists c hc).2.1⟩
  · intro x c
    by_cases hc : c < SizeClass.count
    · rw [(hLists c hc).2.2 x]
      exact ⟨fun h => ⟨hc, h⟩, fun h => h.2⟩
    · rw [hRest c (fun h => hc (SizeClass.mem_all_iff.1 h))]
      simp [hc]

end SentinelTable

------------------------------------------------------------
-- Walks of Rings
------------------------------------------------------------

/- The nodes behind `previous`, as a walk meets them. -/
def nodesAlong
    (headerAt : Nat → Tag) :
    Nat → List Nat → List ListNode
| _, [] => []
| previous, node :: nodes =>
    { offset := node, previous := previous,
      header := headerAt node } ::
      nodesAlong headerAt node nodes

/- Nodes that are met in order have no violation. -/
theorem listViolations_nodesAlong
    (headerAt : Nat → Tag)
    (c sentinel previous : Nat)
    (nodes : List Nat) :
    listViolations c sentinel
      (.sentinel (nodes.getLastD previous)) previous
      (nodesAlong headerAt previous nodes) = [] := by
  induction nodes generalizing previous with
  | nil => exact backLinkViolations_eq_nil_iff.2 rfl
  | cons node nodes ih =>
      rw [nodesAlong, listViolations, List.getLastD_cons, ih,
        backLinkViolations_eq_nil_iff.2 rfl]
      rfl

namespace SentinelTable

variable {table : SentinelTable}
variable {m : Memory}
variable {headerAt : Nat → Tag}
variable {lists : Nat → List Nat}

/- The walk of a ring. -/
def ringWalk
    (table : SentinelTable)
    (headerAt : Nat → Tag)
    (lists : Nat → List Nat)
    (c : Nat) : ListWalk where
  sizeClass := c
  nodes := nodesAlong headerAt (table.sentinel c) (lists c)
  stop := .sentinel ((lists c).getLastD (table.sentinel c))

/- The walk of a ring finds nothing wrong. -/
theorem violations_ringWalk
    (c : Nat) :
    (table.ringWalk headerAt lists c).violations table = [] :=
  listViolations_nodesAlong headerAt c _ _ (lists c)

/- A list that a walk goes through from end to end. -/
structure Walkable
    (table : SentinelTable)
    (m : Memory)
    (headerAt : Nat → Tag)
    (lists : Nat → List Nat)
    (c : Nat) : Prop where
  ring : m.Ring (table.sentinel c) (lists c)
  nodup : (lists c).Nodup
  isNode : ∀ x ∈ lists c, table.isNode m x = true
  header_eq : ∀ x ∈ lists c, m.header x = .ok (headerAt x)
  length_le : (lists c).length ≤ m.blockBound

/- The table knows its sentinels. -/
theorem isSentinel_sentinel
    (table : SentinelTable)
    {c : Nat}
    (hc : c < SizeClass.count) :
    table.isSentinel (table.sentinel c) = true := by
  have hSizes := layout_sizes
  have hInside := table.sentinel_inside hc
  have hMod :
      (table.sentinel c - table.offset) % doubleWord = 0 := by
    unfold sentinel
    rw [Nat.add_sub_cancel_left, Nat.mul_mod_left]
  unfold isSentinel
  rw [hMod, Bool.and_eq_true, Bool.and_eq_true,
    decide_eq_true_eq, decide_eq_true_eq]
  exact ⟨⟨hInside.1, by omega⟩, rfl⟩

/- No sentinel is taken for a node. -/
theorem ne_sentinel_of_isNode
    {c node : Nat}
    (hc : c < SizeClass.count)
    (hNode : table.isNode m node = true) :
    node ≠ table.sentinel c := by
  intro hEq
  unfold isNode at hNode
  rw [hEq, table.isSentinel_sentinel hc, Bool.not_true,
    Bool.and_false] at hNode
  cases hNode

/-
  A walk goes through linked nodes that it has not met yet,
  up to the sentinel.
-/
theorem walkFrom_of_links
    {c steps previous : Nat}
    {nodes : List Nat}
    {listing : Listing}
    (hc : c < SizeClass.count)
    (hSteps : nodes.length ≤ steps)
    (hLinks :
      m.Links (previous :: (nodes ++ [table.sentinel c])))
    (hNodup : nodes.Nodup)
    (hNodes : ∀ x ∈ nodes, table.isNode m x = true)
    (hHeaders : ∀ x ∈ nodes, m.header x = .ok (headerAt x))
    (hFresh : ∀ x ∈ nodes, listing[x]? = none) :
    table.walkFrom m c steps (nodes.headD (table.sentinel c))
        listing =
      .ok (
        { sizeClass := c,
          nodes := nodesAlong headerAt previous nodes,
          stop := .sentinel (nodes.getLastD previous) },
        listing.file c nodes) := by
  induction nodes generalizing steps previous listing with
  | nil =>
      change table.walkFrom m c steps (table.sentinel c)
        listing = _
      rw [walkFrom_sentinel, Fault.bind_of_ok hLinks.2.1]
      rfl
  | cons node nodes ih =>
      cases steps with
      | zero => cases hSteps
      | succ steps =>
          have hNode := hNodes node List.mem_cons_self
          have hEnd := ne_sentinel_of_isNode hc hNode
          have hNew : ¬ listing.contains node = true := by
            rw [Bool.not_eq_true, Listing.contains_eq_false_iff]
            exact hFresh node List.mem_cons_self
          have hNext := hLinks.behind.nextLink_eq
          rw [List.nodup_cons] at hNodup
          have hStillFresh : ∀ x ∈ nodes,
              (listing.insert node c)[x]? = none := by
            intro x hx
            rw [Listing.getElem?_insert_eq, if_neg]
            · exact hFresh x (List.mem_cons_of_mem node hx)
            · exact fun h => hNodup.1 (h ▸ hx)
          have hRest := ih
            (Nat.le_of_succ_le_succ hSteps) hLinks.2.2
            hNodup.2
            (fun x hx => hNodes x (List.mem_cons_of_mem node hx))
            (fun x hx =>
              hHeaders x (List.mem_cons_of_mem node hx))
            hStillFresh
          change table.walkFrom m c (steps + 1) node
            listing = _
          rw [walkFrom, if_neg hEnd]
          dsimp only
          rw [if_pos hNode, Fault.bind_of_ok hLinks.2.1,
            if_neg hNew,
            Fault.bind_of_ok (hHeaders node List.mem_cons_self),
            Fault.bind_of_ok hNext, Fault.bind_of_ok hRest,
            List.getLastD_cons]
          rfl

/- The walks go through rings that have no node in common. -/
theorem walkClasses_of_rings
    {cs : List Nat}
    {listing : Listing}
    (hClasses : ∀ c ∈ cs, c < SizeClass.count)
    (hLists : ∀ c ∈ cs, table.Walkable m headerAt lists c)
    (hDisjoint : cs.Pairwise (fun c d =>
      (lists c).Disjoint (lists d)))
    (hFresh : ∀ c ∈ cs, ∀ x ∈ lists c, listing[x]? = none) :
    table.walkClasses m cs listing =
      .ok (cs.map (table.ringWalk headerAt lists),
        listing.fileAll lists cs) := by
  induction cs generalizing listing with
  | nil => rfl
  | cons c cs ih =>
      have hFirst := hLists c List.mem_cons_self
      have hRing := hFirst.ring
      rw [List.pairwise_cons] at hDisjoint
      have hWalk := walkFrom_of_links
        (hClasses c List.mem_cons_self)
        (Nat.le_succ_of_le hFirst.length_le) hRing
        hFirst.nodup hFirst.isNode hFirst.header_eq
        (hFresh c List.mem_cons_self)
      have hStillFresh : ∀ d ∈ cs, ∀ x ∈ lists d,
          (listing.file c (lists c))[x]? = none := by
        intro d hd x hx
        rw [Listing.getElem?_file, if_neg]
        · exact hFresh d (List.mem_cons_of_mem c hd) x hx
        · exact fun h => hDisjoint.1 d hd h hx
      have hRest := ih
        (fun d hd => hClasses d (List.mem_cons_of_mem c hd))
        (fun d hd => hLists d (List.mem_cons_of_mem c hd))
        hDisjoint.2 hStillFresh
      rw [walkClasses, Fault.bind_of_ok hRing.nextLink_eq,
        Fault.bind_of_ok hWalk]
      dsimp only
      rw [Fault.bind_of_ok hRest]
      rfl

end SentinelTable

end SegregatedFit
