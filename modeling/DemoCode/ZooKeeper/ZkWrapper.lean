import Mathlib.Data.List.Basic
import DemoCode.Lib.Machine

/-! `CZkWrapper` in `zk_wrapper.hpp`: a client creates the nodes of its path one by one, asks for the
children of its directory, and takes its place among them for its mode. -/

namespace DemoCode.ZooKeeper

/-- A `std::string`. -/
abbrev Str := List Char

inductive ZkMode where
  | slave
  | master
  deriving DecidableEq, Repr

/-- The error codes that the callbacks tell apart. -/
inductive Rc where
  | zok
  | znodeexists
  | znonode
  | other
  deriving DecidableEq, Repr

/-- What a callback asks of ZooKeeper or tells its user.  `electCb mode told`: `mode` is the mode
chosen, and the user is told when a callback is set. -/
inductive Action where
  | acreate (path nodeData : Str) (ephemeral : Bool)
  | agetChildren (path : Str)
  | electCb (mode : ZkMode) (told : Bool)
  deriving DecidableEq, Repr

structure CZkWrapper where
  zkElectCb : Bool
  dirPath : Str
  nodeName : Str
  nodeNameVec : List Str
  createdNodeCount : Nat := 0
  isCreatedAllNode : Bool := false
  deriving DecidableEq, Repr

/-- The loop of `StartWatch` over the path after its first character: `part` is the text from `start`
to `pos`. -/
def splitNames (part : Str) : Str → List Str
  | [] => [part]
  | '/' :: rest => part :: splitNames [] rest
  | c :: rest => splitNames (part ++ [c]) rest

/-- `find_last_of('/')`. -/
def findLastSlash (path : Str) : Nat := path.length - 1 - path.reverse.idxOf '/'

/-- `StartWatch`; `cb` says whether the callback can be called. -/
def startWatch (cb : Bool) (nodePath : Str) : Option CZkWrapper :=
  if nodePath = [] ∨ nodePath.head? ≠ some '/' ∨ nodePath.getLast? = some '/' then
    none
  else
    let pos := findLastSlash nodePath
    some {
      zkElectCb := cb
      dirPath := nodePath.take pos
      nodeName := nodePath.drop (pos + 1)
      nodeNameVec := splitNames [] nodePath.tail }

namespace CZkWrapper

/-- The path of the first `count` nodes. -/
def pathTo (w : CZkWrapper) (count : Nat) : Str :=
  (w.nodeNameVec.take count).flatMap ('/' :: ·)

/-- `CreateZNode`. -/
def createZNode (w : CZkWrapper) (dirLevel : Int) : CZkWrapper × List Action :=
  if dirLevel < 0 ∨ w.nodeNameVec.length ≤ dirLevel then
    (w, [])
  else
    let createdNodeCount := dirLevel.toNat + 1
    let parentPath := w.pathTo createdNodeCount
    ({ w with createdNodeCount },
      [.acreate parentPath parentPath (w.nodeNameVec.length ≤ createdNodeCount)])

/-- `GetChildrenList`. -/
def getChildrenList (w : CZkWrapper) : List Action := [.agetChildren w.dirPath]

/-- `CheckZNodeCreate`. -/
def checkZNodeCreate (w : CZkWrapper) : Rc → CZkWrapper × List Action
  | .zok =>
    if w.createdNodeCount < w.nodeNameVec.length then
      w.createZNode w.createdNodeCount
    else
      ({ w with isCreatedAllNode := true }, w.getChildrenList)
  | .znodeexists =>
    if w.createdNodeCount < w.nodeNameVec.length then
      w.createZNode w.createdNodeCount
    else if w.isCreatedAllNode then
      -- maybe a reconnection
      (w, w.getChildrenList)
    else
      (w, [])
  | .znonode =>
    if 2 ≤ w.createdNodeCount then
      w.createZNode (w.createdNodeCount - 2)
    else
      (w, [])
  | .other => (w, [])

/-- `ElectMaster`. -/
def electMaster (w : CZkWrapper) (rc : Rc) (childs : List Str) : CZkWrapper × List Action :=
  if rc = .zok then
    match childs.idxOf? w.nodeName with
    | none => w.createZNode (w.nodeNameVec.length - 1)
    | some matchIdx =>
      let mode : ZkMode := if matchIdx = 0 then .master else .slave
      (w, [.electCb mode w.zkElectCb])
  else
    (w, [])

end CZkWrapper

/-- What ZooKeeper tells a client. -/
inductive ZkEvent where
  | connected
  | childChange
  | created (rc : Rc)
  | children (rc : Rc) (childs : List Str)
  deriving DecidableEq, Repr

/-- `OnZKWatch`, `OnCreateZNodeCb` and `OnGetChildrenCb`. -/
def CZkWrapper.step (w : CZkWrapper) : ZkEvent → Option (CZkWrapper × List Action)
  | .connected => some (w.createZNode 0)
  | .childChange => some (w, w.getChildrenList)
  | .created rc => some (w.checkZNodeCreate rc)
  | .children rc childs => some (w.electMaster rc childs)

/-! ### The paths of a client -/

theorem findLastSlash_append {dir name : Str} (hName : '/' ∉ name) :
    findLastSlash (dir ++ '/' :: name) = dir.length := by
  have hIdx : (dir ++ '/' :: name).reverse.idxOf '/' = name.length := by
    rw [List.reverse_append, List.reverse_cons, List.append_assoc, List.idxOf_append_of_notMem
      (by simpa using hName)]
    simp
  rw [findLastSlash, hIdx]
  simp only [List.length_append, List.length_cons]
  omega

/-- `StartWatch` takes a path apart into its directory and the name after it. -/
theorem startWatch_path {cb : Bool} {dir name : Str} {w : CZkWrapper} (hName : '/' ∉ name)
    (h : startWatch cb (dir ++ '/' :: name) = some w) :
    w.zkElectCb = cb ∧ w.dirPath = dir ∧ w.nodeName = name := by
  unfold startWatch at h
  split at h
  · cases h
  · cases h
    simp [findLastSlash_append hName]

/-! ### What no event changes -/

namespace CZkWrapper

/-- The same client: what `StartWatch` set is unchanged. -/
structure Same (w w' : CZkWrapper) : Prop where
  zkElectCb : w'.zkElectCb = w.zkElectCb
  dirPath : w'.dirPath = w.dirPath
  nodeName : w'.nodeName = w.nodeName
  nodeNameVec : w'.nodeNameVec = w.nodeNameVec

theorem Same.refl (w : CZkWrapper) : Same w w := ⟨rfl, rfl, rfl, rfl⟩

theorem Same.trans {w₁ w₂ w₃ : CZkWrapper} (h : Same w₁ w₂) (h' : Same w₂ w₃) : Same w₁ w₃ :=
  ⟨h'.1.trans h.1, h'.2.trans h.2, h'.3.trans h.3, h'.4.trans h.4⟩

theorem createZNode_same (w : CZkWrapper) (dirLevel : Int) :
    Same w (w.createZNode dirLevel).1 := by
  unfold createZNode
  split <;> exact ⟨rfl, rfl, rfl, rfl⟩

theorem checkZNodeCreate_same (w : CZkWrapper) (rc : Rc) : Same w (w.checkZNodeCreate rc).1 := by
  unfold checkZNodeCreate
  cases rc with
  | zok =>
    dsimp only
    split
    · exact createZNode_same w _
    · exact ⟨rfl, rfl, rfl, rfl⟩
  | znodeexists =>
    dsimp only
    split
    · exact createZNode_same w _
    · split <;> exact Same.refl w
  | znonode =>
    dsimp only
    split
    · exact createZNode_same w _
    · exact Same.refl w
  | other => exact Same.refl w

theorem electMaster_same (w : CZkWrapper) (rc : Rc) (childs : List Str) :
    Same w (w.electMaster rc childs).1 := by
  unfold electMaster
  split
  · split
    · exact createZNode_same w _
    · exact Same.refl w
  · exact Same.refl w

theorem step_same {w w' : CZkWrapper} {ev : ZkEvent} {acts : List Action}
    (h : w.step ev = some (w', acts)) : Same w w' := by
  cases ev with
  | connected =>
    obtain rfl := congrArg Prod.fst (Option.some.inj h)
    exact createZNode_same w 0
  | childChange =>
    cases h
    exact Same.refl w
  | created rc =>
    obtain rfl := congrArg Prod.fst (Option.some.inj h)
    exact checkZNodeCreate_same w rc
  | children rc childs =>
    obtain rfl := congrArg Prod.fst (Option.some.inj h)
    exact electMaster_same w rc childs

theorem run_same {w w' : CZkWrapper} {evs : List ZkEvent} {acts : List (List Action)}
    (h : Machine.run step w evs = some (w', acts)) : Same w w' := by
  apply Machine.run_invariant (I := Same w) _ (Same.refl w) h
  intro s ev s' out hSame hStep
  exact hSame.trans (step_same hStep)

end CZkWrapper

end DemoCode.ZooKeeper
