import Mathlib.Data.Nat.Find
import Mathlib.Logic.Function.Basic
import DemoCode.ZooKeeper.ZkWrapper

/-! A client creates the nodes of its path against the tree of the server.  Where a parent is missing it
goes back, one level at a time, to the first node that can be created, and then forward to the end. -/

namespace DemoCode.ZooKeeper

structure ZNode where
  nodeData : Str
  ephemeral : Bool
  deriving DecidableEq, Repr

/-- The text before the last slash; the root is the empty path. -/
def parent (path : Str) : Str := path.take (findLastSlash path)

/-- The nodes of a server: each but the root has a parent. -/
structure Server where
  node : Str → Option ZNode
  root : (node []).isSome
  closed : ∀ path, (node path).isSome → (node (parent path)).isSome

/-- The nodes of a server and one whose parent is there. -/
def Server.add (server : Server) (path : Str) (node : ZNode)
    (hParent : (server.node (parent path)).isSome) : Server where
  node := Function.update server.node path (some node)
  root := by
    by_cases hRoot : path = []
    · simp [hRoot]
    · rw [Function.update_of_ne (Ne.symm hRoot)]
      exact server.root
  closed other hOther := by
    by_cases hUp : parent other = path
    · simp [hUp]
    · rw [Function.update_of_ne hUp]
      by_cases hSame : other = path
      · rw [hSame]
        exact hParent
      · rw [Function.update_of_ne hSame] at hOther
        exact server.closed other hOther

theorem Server.add_self (server : Server) (path : Str) (node : ZNode)
    (hParent : (server.node (parent path)).isSome) :
    (server.add path node hParent).node path = some node := Function.update_self ..

theorem Server.add_of_ne (server : Server) {path other : Str} (node : ZNode)
    (hParent : (server.node (parent path)).isSome) (h : other ≠ path) :
    (server.add path node hParent).node other = server.node other := Function.update_of_ne h ..

/-- How a server answers `zoo_acreate`. -/
def Server.acreate (server : Server) (path nodeData : Str) (ephemeral : Bool) : Server × Rc :=
  if hParent : (server.node (parent path)).isSome then
    if (server.node path).isSome then
      (server, .znodeexists)
    else
      (server.add path { nodeData, ephemeral } hParent, .zok)
  else
    (server, .znonode)

/-- What a chain of answers comes to: the client, the server, the creates that were asked for, and what
the client asks for at the end. -/
structure Outcome where
  client : CZkWrapper
  server : Server
  creates : List Action
  asked : List Action

/-- The chain of a client's creates, each answered by the server and checked by `CheckZNodeCreate`;
nothing when it does not end after a number of them. -/
def answered : ℕ → CZkWrapper × List Action → Server → Option Outcome
  | fuel, (w, [.acreate path nodeData ephemeral]), server =>
    match fuel with
    | 0 => none
    | fuel + 1 =>
      let (server', rc) := server.acreate path nodeData ephemeral
      (answered fuel (w.checkZNodeCreate rc) server').map fun out =>
        { out with creates := .acreate path nodeData ephemeral :: out.creates }
  | _, (w, asked), server => some { client := w, server, creates := [], asked }

namespace CZkWrapper

/-- The create of the node at a level, with the path up to it. -/
def createAt (w : CZkWrapper) (count : ℕ) : Action :=
  .acreate (w.pathTo count) (w.pathTo count) (w.nodeNameVec.length ≤ count)

/-- The client that waits for the answer to this create. -/
def pending (w : CZkWrapper) (count : ℕ) : CZkWrapper × List Action :=
  ({ w with createdNodeCount := count }, [w.createAt count])

variable {w : CZkWrapper} {server server' : Server} {count depth fuel : ℕ}

theorem createZNode_pending (w : CZkWrapper) {level : ℕ} (h : level < w.nodeNameVec.length) :
    w.createZNode level = w.pending (level + 1) := by
  have hIn : ¬ ((level : Int) < 0 ∨ (w.nodeNameVec.length : Int) ≤ level) := by omega
  rw [createZNode, if_neg hIn]
  rfl

/-! ### The paths of the nodes -/

theorem length_pathTo (h : count < w.nodeNameVec.length) :
    (w.pathTo count).length < (w.pathTo (count + 1)).length := by
  rw [pathTo, pathTo, List.take_succ_eq_append_getElem h, List.flatMap_append]
  simp

theorem pathTo_ne {count' : ℕ} (hLt : count < count') (hLe : count' ≤ w.nodeNameVec.length) :
    w.pathTo count ≠ w.pathTo count' := by
  have hLength : ∀ n, count + n < w.nodeNameVec.length →
      (w.pathTo count).length < (w.pathTo (count + n + 1)).length := by
    intro n
    induction n with
    | zero => exact fun h => length_pathTo h
    | succ n ih => exact fun h => Nat.lt_trans (ih (by omega)) (length_pathTo h)
  intro hEq
  have hStep := hLength (count' - count - 1) (by omega)
  rw [show count + (count' - count - 1) + 1 = count' by omega, hEq] at hStep
  exact Nat.lt_irrefl _ hStep

/-- No name has a slash. -/
def Plain (w : CZkWrapper) : Prop := ∀ name ∈ w.nodeNameVec, '/' ∉ name

theorem parent_pathTo (hPlain : w.Plain) (h : count < w.nodeNameVec.length) :
    parent (w.pathTo (count + 1)) = w.pathTo count := by
  have hName := hPlain _ (List.getElem_mem h)
  have hPath : w.pathTo (count + 1) = w.pathTo count ++ '/' :: w.nodeNameVec[count] := by
    rw [pathTo, pathTo, List.take_succ_eq_append_getElem h, List.flatMap_append]
    simp
  rw [hPath, parent, findLastSlash_append hName, List.take_left]

/-! ### The answers to one create -/

/-- The tree of a server when the nodes of a client are there up to a depth; those that were missing at
the start are as the client made them. -/
structure Grown (w : CZkWrapper) (start server : Server) (depth : ℕ) : Prop where
  depth_le : depth ≤ w.nodeNameVec.length
  there : ∀ count ≤ w.nodeNameVec.length,
    (server.node (w.pathTo count)).isSome ↔ count ≤ depth
  made : ∀ count ≤ depth, start.node (w.pathTo count) = none →
    server.node (w.pathTo count) =
      some { nodeData := w.pathTo count, ephemeral := w.nodeNameVec.length ≤ count }

variable {start : Server}

theorem exists_grown (hPlain : w.Plain) (start : Server) : ∃ depth, Grown w start start depth := by
  have hDown : ∀ count n, count + n ≤ w.nodeNameVec.length →
      (start.node (w.pathTo (count + n))).isSome → (start.node (w.pathTo count)).isSome := by
    intro count n
    induction n with
    | zero => exact fun _ h => h
    | succ n ih =>
      intro hLe hSome
      have hParent := start.closed _ hSome
      rw [← Nat.add_assoc, parent_pathTo hPlain (by omega)] at hParent
      exact ih (by omega) hParent
  let depth := Nat.findGreatest (fun count => (start.node (w.pathTo count)).isSome)
    w.nodeNameVec.length
  have hLe : depth ≤ w.nodeNameVec.length := Nat.findGreatest_le _
  have hThere : (start.node (w.pathTo depth)).isSome :=
    Nat.findGreatest_spec (P := fun count => (start.node (w.pathTo count)).isSome)
      (Nat.zero_le w.nodeNameVec.length) start.root
  refine ⟨depth, hLe, fun count hCount => ⟨fun hSome => ?_, fun hDepth => ?_⟩, ?_⟩
  · exact Nat.le_findGreatest hCount hSome
  · apply hDown count (depth - count) (by omega)
    rwa [Nat.add_sub_cancel' hDepth]
  · intro count hDepth hNone
    have hSome := hDown count (depth - count) (by omega) (by rwa [Nat.add_sub_cancel' hDepth])
    rw [hNone] at hSome
    cases hSome

/-- A node whose parent is missing. -/
theorem Grown.acreate_back (h : Grown w start server depth) (hPlain : w.Plain)
    (hLe : count + 1 ≤ w.nodeNameVec.length) (hBack : depth < count) (nodeData : Str)
    (ephemeral : Bool) :
    server.acreate (w.pathTo (count + 1)) nodeData ephemeral = (server, .znonode) := by
  have hParent : ¬ (server.node (parent (w.pathTo (count + 1)))).isSome := by
    rw [parent_pathTo hPlain hLe, h.there count (by omega)]
    omega
  rw [Server.acreate, dif_neg hParent]

/-- A node that is there. -/
theorem Grown.acreate_exists (h : Grown w start server depth) (hPlain : w.Plain)
    (hLe : count + 1 ≤ w.nodeNameVec.length) (hHere : count + 1 ≤ depth) (nodeData : Str)
    (ephemeral : Bool) :
    server.acreate (w.pathTo (count + 1)) nodeData ephemeral = (server, .znodeexists) := by
  have hParent : (server.node (parent (w.pathTo (count + 1)))).isSome := by
    rw [parent_pathTo hPlain hLe, h.there count (by omega)]
    omega
  have hNode : (server.node (w.pathTo (count + 1))).isSome := (h.there (count + 1) hLe).mpr hHere
  rw [Server.acreate, dif_pos hParent, if_pos hNode]

/-- The first node that is missing. -/
theorem Grown.acreate_next (h : Grown w start server depth) (hPlain : w.Plain)
    (hLt : depth < w.nodeNameVec.length) :
    ∃ server', server.acreate (w.pathTo (depth + 1)) (w.pathTo (depth + 1))
        (w.nodeNameVec.length ≤ depth + 1) = (server', .zok) ∧ Grown w start server' (depth + 1) := by
  have hParent : (server.node (parent (w.pathTo (depth + 1)))).isSome := by
    rw [parent_pathTo hPlain hLt, h.there depth (by omega)]
  have hNode : ¬ (server.node (w.pathTo (depth + 1))).isSome := by
    rw [h.there (depth + 1) hLt]
    omega
  rw [Server.acreate, dif_pos hParent, if_neg hNode]
  refine ⟨_, rfl, hLt, fun count hCount => ?_, fun count hCount hNone => ?_⟩
  · by_cases hSame : count = depth + 1
    · rw [hSame, Server.add_self]
      simp
    · have hNe : w.pathTo count ≠ w.pathTo (depth + 1) := by
        rcases Nat.lt_or_gt_of_ne hSame with hBelow | hAbove
        · exact pathTo_ne hBelow hLt
        · exact (pathTo_ne hAbove hCount).symm
      rw [Server.add_of_ne _ _ _ hNe, h.there count hCount]
      omega
  · by_cases hSame : count = depth + 1
    · rw [hSame, Server.add_self]
    · rw [Server.add_of_ne _ _ _ (pathTo_ne (by omega) hLt)]
      exact h.made count (by omega) hNone

/-! ### The chain -/

/-- What the client does with the answers. -/
theorem checkZNodeCreate_forward {rc : Rc} (hRc : rc = .zok ∨ rc = .znodeexists)
    (h : count < w.nodeNameVec.length) :
    (w.pending count).1.checkZNodeCreate rc = w.pending (count + 1) := by
  have hNext : (w.pending count).1.createZNode count = w.pending (count + 1) :=
    createZNode_pending (w.pending count).1 h
  rcases hRc with rfl | rfl
  · rw [checkZNodeCreate, if_pos (by exact h)]
    exact hNext
  · rw [checkZNodeCreate, if_pos (by exact h)]
    exact hNext

theorem checkZNodeCreate_back (h : count + 2 ≤ w.nodeNameVec.length) :
    (w.pending (count + 2)).1.checkZNodeCreate .znonode = w.pending (count + 1) := by
  have hNext : (w.pending (count + 2)).1.createZNode count = w.pending (count + 1) :=
    createZNode_pending (w.pending (count + 2)).1 (by exact (by omega : count < w.nodeNameVec.length))
  rw [checkZNodeCreate, if_pos (by exact (by omega : 2 ≤ count + 2))]
  simpa [pending] using hNext

theorem answered_pending {rc : Rc} (hCreate : server.acreate (w.pathTo count) (w.pathTo count)
      (w.nodeNameVec.length ≤ count) = (server', rc)) :
    answered (fuel + 1) (w.pending count) server =
      (answered fuel ((w.pending count).1.checkZNodeCreate rc) server').map fun out =>
        { out with creates := w.createAt count :: out.creates } := by
  rw [pending, createAt, answered]
  simp only [hCreate]

/-- The end of a chain: each create was for one of the client's nodes, all of these are there, and those
that were missing are as they should be, the last one ephemeral. -/
structure Finished (w : CZkWrapper) (start : Server) (out : Outcome) : Prop where
  creates : ∀ a ∈ out.creates, ∃ count, 0 < count ∧ count ≤ w.nodeNameVec.length ∧
    a = w.createAt count
  components : ∀ count ≤ w.nodeNameVec.length, (out.server.node (w.pathTo count)).isSome
  last : start.node (w.pathTo w.nodeNameVec.length) = none →
    out.server.node (w.pathTo w.nodeNameVec.length) =
      some { nodeData := w.pathTo w.nodeNameVec.length, ephemeral := true } ∧
    out.client.isCreatedAllNode = true
  others : ∀ count < w.nodeNameVec.length, start.node (w.pathTo count) = none →
    out.server.node (w.pathTo count) = some { nodeData := w.pathTo count, ephemeral := false }

variable {out : Outcome}

theorem Grown.finished (h : Grown w start out.server w.nodeNameVec.length) (hCreates : out.creates = [])
    (hAll : start.node (w.pathTo w.nodeNameVec.length) = none → out.client.isCreatedAllNode = true) :
    Finished w start out where
  creates a ha := by
    rw [hCreates] at ha
    cases ha
  components count hLe := (h.there count hLe).mpr hLe
  last hNone := by
    have hMade := h.made _ (Nat.le_refl _) hNone
    exact ⟨by simpa using hMade, hAll hNone⟩
  others count hLt hNone := by
    have hMade := h.made count (Nat.le_of_lt hLt) hNone
    rwa [decide_eq_false (Nat.not_le.mpr hLt)] at hMade

theorem Finished.cons (h : Finished w start out) (hPos : 0 < count)
    (hLe : count ≤ w.nodeNameVec.length) :
    Finished w start { out with creates := w.createAt count :: out.creates } where
  creates a ha := by
    rcases List.mem_cons.mp ha with rfl | hLater
    · exact ⟨count, hPos, hLe, rfl⟩
    · exact h.creates a hLater
  components := h.components
  last := h.last
  others := h.others

/-- One answer before a chain that ends well. -/
theorem finished_cons {rc : Rc} (hPos : 0 < count) (hLe : count ≤ w.nodeNameVec.length)
    (hCreate : server.acreate (w.pathTo count) (w.pathTo count) (w.nodeNameVec.length ≤ count) =
      (server', rc))
    (hRest : ∃ out, answered fuel ((w.pending count).1.checkZNodeCreate rc) server' = some out ∧
      Finished w start out) :
    ∃ out, answered (fuel + 1) (w.pending count) server = some out ∧ Finished w start out := by
  obtain ⟨out, hOut, hFinished⟩ := hRest
  refine ⟨{ out with creates := w.createAt count :: out.creates }, ?_, hFinished.cons hPos hLe⟩
  rw [answered_pending hCreate, hOut]
  rfl

/-- The answer to the last create ends the chain. -/
theorem finished_last {rc : Rc} (hRc : rc = .zok ∨ rc = .znodeexists)
    (hCreated : rc = .znodeexists → start.node (w.pathTo w.nodeNameVec.length) ≠ none)
    (h : Grown w start server w.nodeNameVec.length) :
    ∃ out, answered fuel ((w.pending w.nodeNameVec.length).1.checkZNodeCreate rc) server = some out ∧
      Finished w start out := by
  have hLast : ¬ (w.pending w.nodeNameVec.length).1.createdNodeCount <
      (w.pending w.nodeNameVec.length).1.nodeNameVec.length := Nat.lt_irrefl _
  rcases hRc with rfl | rfl
  · rw [checkZNodeCreate, if_neg hLast, getChildrenList, answered]
    · exact ⟨_, rfl, Grown.finished h rfl fun _ => rfl⟩
    · nofun
  · have hThere := hCreated rfl
    rw [checkZNodeCreate, if_neg hLast]
    split
    next =>
      rw [getChildrenList, answered]
      · exact ⟨_, rfl, Grown.finished h rfl fun hNone => absurd hNone hThere⟩
      · nofun
    next =>
      rw [answered]
      · exact ⟨_, rfl, Grown.finished h rfl fun hNone => absurd hNone hThere⟩
      · nofun

/-- Forward: from a node that can be created or is there, to the end. -/
theorem finished_forward (hPlain : w.Plain) (h : Grown w start server depth)
    (hMissing : start.node (w.pathTo w.nodeNameVec.length) = none → depth < w.nodeNameVec.length)
    (hCount : count ≤ depth) (left : ℕ) (hLeft : count + 1 + left = w.nodeNameVec.length)
    (hFuel : left < fuel) :
    ∃ out, answered fuel (w.pending (count + 1)) server = some out ∧ Finished w start out := by
  induction left generalizing count depth server fuel with
  | zero =>
    obtain ⟨fuel, rfl⟩ := Nat.exists_eq_add_of_lt hFuel
    by_cases hHere : count + 1 ≤ depth
    · have hFull : depth = w.nodeNameVec.length := Nat.le_antisymm h.depth_le (by omega)
      apply finished_cons (Nat.add_one_pos count) (by omega)
        (h.acreate_exists hPlain (by omega) hHere _ _)
      rw [Nat.add_zero] at hLeft
      rw [hLeft]
      rw [hFull] at h
      exact finished_last (.inr rfl) (fun _ hNone => absurd (hMissing hNone) (by omega)) h
    · obtain rfl : count = depth := by omega
      obtain ⟨server', hCreate, hGrown⟩ := h.acreate_next hPlain (by omega)
      apply finished_cons (Nat.add_one_pos count) (by omega) hCreate
      rw [Nat.add_zero] at hLeft
      rw [hLeft] at hGrown ⊢
      exact finished_last (.inl rfl) nofun hGrown
  | succ left ih =>
    obtain ⟨fuel, rfl⟩ := Nat.exists_eq_add_of_lt hFuel
    by_cases hHere : count + 1 ≤ depth
    · apply finished_cons (Nat.add_one_pos count) (by omega)
        (h.acreate_exists hPlain (by omega) hHere _ _)
      rw [checkZNodeCreate_forward (.inr rfl) (by omega)]
      exact ih h hMissing hHere (by omega) (by omega)
    · obtain rfl : count = depth := by omega
      obtain ⟨server', hCreate, hGrown⟩ := h.acreate_next hPlain (by omega)
      apply finished_cons (Nat.add_one_pos count) (by omega) hCreate
      rw [checkZNodeCreate_forward (.inl rfl) (by omega)]
      exact ih hGrown (fun _ => by omega) (Nat.le_refl _) (by omega) (by omega)

/-- Back: from a node some levels below the first one that can be created. -/
theorem finished_back (hPlain : w.Plain) (h : Grown w start server depth)
    (hMissing : start.node (w.pathTo w.nodeNameVec.length) = none → depth < w.nodeNameVec.length)
    (levels : ℕ) (hLe : depth + levels + 1 ≤ w.nodeNameVec.length)
    (hFuel : levels + (w.nodeNameVec.length - depth) ≤ fuel) :
    ∃ out, answered fuel (w.pending (depth + levels + 1)) server = some out ∧
      Finished w start out := by
  induction levels generalizing fuel with
  | zero =>
    exact finished_forward hPlain h hMissing (Nat.le_refl depth)
      (w.nodeNameVec.length - (depth + 1)) (by omega) (by omega)
  | succ levels ih =>
    obtain ⟨fuel, rfl⟩ : ∃ n, fuel = n + 1 := ⟨fuel - 1, by omega⟩
    apply finished_cons (Nat.add_one_pos _) hLe
      (h.acreate_back hPlain hLe (by omega) _ _)
    rw [show depth + (levels + 1) + 1 = depth + levels + 2 by omega, checkZNodeCreate_back (by omega)]
    exact ih (by omega) (by omega)

/-- A chain makes at most as many creates as it may. -/
theorem length_creates {w : CZkWrapper × List Action}
    (h : answered fuel w server = some out) : out.creates.length ≤ fuel := by
  fun_induction answered fuel w server generalizing out with
  | case1 => cases h
  | case2 w path nodeData ephemeral server fuel server' rc hCreate ih =>
    obtain ⟨out', hRest, rfl⟩ := Option.map_eq_some_iff.mp h
    exact Nat.succ_le_succ (ih hRest)
  | case3 fuel w asked server hNot =>
    cases h
    exact Nat.zero_le fuel

end CZkWrapper

/-! ### The names of a path -/

theorem splitNames_plain {part path : Str} (hPart : '/' ∉ part) :
    ∀ name ∈ splitNames part path, '/' ∉ name := by
  fun_induction splitNames part path with
  | case1 part => simpa using hPart
  | case2 part rest ih =>
    intro name hName
    rcases List.mem_cons.mp hName with rfl | hLater
    · exact hPart
    · exact ih List.not_mem_nil name hLater
  | case3 part c rest hc ih =>
    apply ih
    rw [List.mem_append, List.mem_singleton, not_or]
    exact ⟨hPart, fun hEq => hc hEq.symm⟩

theorem startWatch_plain {cb : Bool} {path : Str} {w : CZkWrapper} (h : startWatch cb path = some w) :
    w.Plain := by
  unfold startWatch at h
  split at h
  next => cases h
  next =>
    cases h
    exact splitNames_plain List.not_mem_nil

/-- From any level of any accepted path, against any tree, the chain of creates ends after at most twice
as many of them as the path has nodes, and the path is there. -/
theorem creation_finishes {cb : Bool} {path : Str} {w w' : CZkWrapper}
    (hStart : startWatch cb path = some w) (hSame : CZkWrapper.Same w w') (server : Server)
    {level : ℕ} (hLevel : level < w'.nodeNameVec.length) :
    ∃ out, answered (2 * w'.nodeNameVec.length) (w'.createZNode level) server = some out ∧
      out.creates.length ≤ 2 * w'.nodeNameVec.length ∧ w'.Finished server out := by
  have hPlain : w'.Plain := by
    rw [CZkWrapper.Plain, hSame.nodeNameVec]
    exact startWatch_plain hStart
  obtain ⟨depth, hGrown⟩ := CZkWrapper.exists_grown hPlain server
  have hMissing : server.node (w'.pathTo w'.nodeNameVec.length) = none →
      depth < w'.nodeNameVec.length := by
    intro hNone
    have hNot : ¬ w'.nodeNameVec.length ≤ depth := by
      rw [← hGrown.there _ (Nat.le_refl _), hNone]
      nofun
    omega
  have hFinished : ∃ out, answered (2 * w'.nodeNameVec.length) (w'.createZNode level) server = some out ∧
      w'.Finished server out := by
    rw [CZkWrapper.createZNode_pending w' hLevel]
    by_cases hHere : level ≤ depth
    · exact CZkWrapper.finished_forward hPlain hGrown hMissing hHere
        (w'.nodeNameVec.length - (level + 1)) (by omega) (by omega)
    · obtain ⟨levels, rfl⟩ := Nat.exists_eq_add_of_le (Nat.le_of_not_le hHere)
      exact CZkWrapper.finished_back hPlain hGrown hMissing levels hLevel (by omega)
  obtain ⟨out, hOut, hEnd⟩ := hFinished
  exact ⟨out, hOut, CZkWrapper.length_creates hOut, hEnd⟩

/-- A server that has the root only. -/
def Server.bare : Server where
  node path := if path = [] then some { nodeData := [], ephemeral := false } else none
  root := rfl
  closed path hPath := by
    obtain rfl : path = [] := by
      by_contra hNot
      simp [hNot] at hPath
    rfl

/-- The client of `/feed/node` starts with the whole path. -/
theorem creation_finishes_bare : ∃ w, startWatch true "/feed/node".toList = some w ∧
    ∃ out, answered (2 * w.nodeNameVec.length) (w.createZNode (1 : ℕ)) Server.bare = some out ∧
      out.creates.length ≤ 2 * w.nodeNameVec.length ∧ w.Finished Server.bare out := by
  obtain ⟨w, hStart, hLevel⟩ : ∃ w, startWatch true "/feed/node".toList = some w ∧
      1 < w.nodeNameVec.length := ⟨_, rfl, by decide⟩
  exact ⟨w, hStart, creation_finishes hStart (CZkWrapper.Same.refl w) Server.bare hLevel⟩

end DemoCode.ZooKeeper
