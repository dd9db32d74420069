import Mathlib.Algebra.Group.Nat.Defs
import Mathlib.Data.List.Rotate

/-!
# The ORCA cycle detector

`CycleDetector`: the graph of references between objects of different actors, the queue of suspects,
the coloured depth-first search and the trial decrements. Reference counting alone never frees a
cycle through several actors; the detector takes one reference off every object of a cycle it meets,
frees the cycle when nothing is left, and puts the references back otherwise.

An object is named by its owner and the address of its header. The graph is a list of its entries in
the order the hash map iterates over them, which is arbitrary: statements are about every order.
-/

set_option autoImplicit false

namespace Nulang.OrcaCycle

/-! ## The detector -/

/-- An object: the actor that owns it, and the address of its header. -/
structure Obj where
  actor : Nat
  header : Nat
deriving DecidableEq

/-- The counts of an `OrcaHeader`. -/
structure Header where
  refCount : Nat
  foreignCount : Nat
  sticky : Bool
deriving DecidableEq

abbrev Headers := Obj → Header

inductive NodeColor where
  | white
  | gray
  | black
deriving DecidableEq

structure ForeignEdge where
  target : Obj
  refCount : Nat
deriving DecidableEq

structure ForeignRefNode where
  foreignRefs : List ForeignEdge
  weight : Nat
  color : NodeColor
deriving DecidableEq

abbrev Graph := List (Obj × ForeignRefNode)

structure CycleDetector where
  graph : Graph
  suspects : List Obj
  epoch : Nat
  /-- the actors of this node, when the detector is restricted to them -/
  localActors : Option (List Nat)
  suspectThreshold : Nat
  cyclesFound : Nat
  objectsReclaimed : Nat
  /-- the keys of the scan in progress, and how many of them have been scanned -/
  scanKeys : Option (List Obj)
  scanCursor : Nat
  scanBatchSize : Nat

/-- `CycleDetector::new`. -/
def CycleDetector.new : CycleDetector where
  graph := []
  suspects := []
  epoch := 0
  localActors := none
  suspectThreshold := 1
  cyclesFound := 0
  objectsReclaimed := 0
  scanKeys := none
  scanCursor := 0
  scanBatchSize := 100

/-- `is_alive`, which adds two `u32`s. -/
def Header.isAlive (h : Header) : Bool := decide ((h.refCount + h.foreignCount) % 2 ^ 32 > 0)

/-- Both counts, and their sum, are in the range of a `u32`. -/
def Header.Fits (h : Header) : Prop := h.refCount + h.foreignCount < 2 ^ 32

theorem Header.isAlive_iff {h : Header} (hf : h.Fits) :
    h.isAlive = true ↔ 0 < h.refCount + h.foreignCount := by
  rw [isAlive, Nat.mod_eq_of_lt hf, decide_eq_true_iff]

namespace ForeignRefNode

/-- `compute_weight`: a saturating difference. -/
def computeWeight (h : Header) (node : ForeignRefNode) : Nat :=
  h.foreignCount - node.foreignRefs.foldr (fun e n => e.refCount + n) 0

/-- The weight of a node found dead, `u32::MAX`. -/
def deadWeight : Nat := 2 ^ 32 - 1

end ForeignRefNode

namespace Graph

def keys (g : Graph) : List Obj := g.map (·.1)

/-- `get_mut` at a key. -/
def modify (g : Graph) (o : Obj) (f : ForeignRefNode → ForeignRefNode) : Graph :=
  g.map fun p => if p.1 = o then (p.1, f p.2) else p

def setColor (g : Graph) (o : Obj) (c : NodeColor) : Graph := g.modify o ({ · with color := c })

/-- `HashMap::remove`. -/
def remove (g : Graph) (o : Obj) : Graph := g.filter (·.1 ≠ o)

end Graph

/-- `set_local_actors`: no restriction is every actor. -/
def CycleDetector.isLocal (D : CycleDetector) (actor : Nat) : Bool :=
  match D.localActors with
  | some set => set.contains actor
  | none => true

namespace CycleDetector

/-- `register_foreign_ref`. -/
def registerForeignRef (D : CycleDetector) (source target : Obj) : CycleDetector :=
  if source.actor = target.actor then D
  else if !D.isLocal target.actor then D
  else if D.localActors.isSome && !D.isLocal source.actor then D
  else
    let g := if D.graph.keys.contains source then D.graph
      else D.graph ++ [(source, ⟨[], 0, .white⟩)]
    { D with graph := g.modify source fun node =>
        if node.foreignRefs.any (·.target = target) then
          { node with foreignRefs := node.foreignRefs.map fun e =>
              if e.target = target then { e with refCount := e.refCount + 1 } else e }
        else { node with foreignRefs := node.foreignRefs ++ [⟨target, 1⟩] } }

/-- One key of the scan: a dead node is marked, a live one gets its weight and may be suspected. -/
def scanNode (H : Headers) (D : CycleDetector) (o : Obj) : CycleDetector :=
  match D.graph.lookup o with
  | none => D
  | some node =>
    if !D.isLocal o.actor then D
    else if !(H o).isAlive then
      { D with graph := D.graph.modify o ({ · with weight := ForeignRefNode.deadWeight }) }
    else
      let weight := node.computeWeight (H o)
      { D with
        graph := D.graph.modify o ({ · with weight := weight })
        suspects := if weight ≤ D.suspectThreshold then D.suspects ++ [o] else D.suspects }

/-- The scan in progress, or a new one over the present keys. -/
def startScan (D : CycleDetector) : CycleDetector :=
  match D.scanKeys with
  | some _ => D
  | none => { D with suspects := [], scanKeys := some D.graph.keys, scanCursor := 0 }

/-- `refresh_suspects`. -/
def refreshSuspects (H : Headers) (D : CycleDetector) : CycleDetector :=
  let D := D.startScan
  let keys := D.scanKeys.getD []
  let stop := min (D.scanCursor + D.scanBatchSize) keys.length
  let D := ((keys.drop D.scanCursor).take (stop - D.scanCursor)).foldl (scanNode H) D
  if stop ≥ keys.length then
    { D with
      graph := D.graph.filter (·.2.weight ≠ ForeignRefNode.deadWeight)
      scanKeys := none
      scanCursor := 0 }
  else { D with scanCursor := stop }

end CycleDetector

/-- The loop over the edge targets of a node. -/
def explore (isLocal : Nat → Bool) (visit : Graph → Obj → Option (List Obj) × Graph) :
    Graph → List Obj → Option (List Obj) × Graph
  | g, [] => (none, g)
  | g, t :: ts =>
      if isLocal t.actor && g.keys.contains t then
        match visit g t with
        | (some cycle, g') => (some cycle, g')
        | (none, g') => explore isLocal visit g' ts
      else explore isLocal visit g ts

/-- `dfs_find_cycle`. The first argument bounds the depth: every level turns a white node gray. -/
def dfsFindCycle (isLocal : Nat → Bool) :
    Nat → Graph → List Obj → Obj → Option (List Obj) × Graph
  | 0, g, _, _ => (none, g)
  | depth + 1, g, path, o =>
      if !isLocal o.actor then (none, g)
      else
        match g.lookup o with
        | none => (none, g)
        | some node =>
          match node.color with
          | .black => (none, g)
          | .gray => ((path.idxOf? o).map (path.drop ·), g)
          | .white =>
            match explore isLocal (fun g t => dfsFindCycle isLocal depth g (path ++ [o]) t)
                (g.setColor o .gray) (node.foreignRefs.map (·.target)) with
            | (some cycle, g') => (some cycle, g')
            | (none, g') => (none, g'.setColor o .black)

def Headers.bumpForeign (H : Headers) (o : Obj) (f : Nat → Nat) : Headers :=
  Function.update H o { H o with foreignCount := f (H o).foreignCount }

/-- `send_trial_decrements`: for each `i` the object after `cycle[i]`, around the cycle. -/
def sendTrialDecrements (H : Headers) (cycle : List Obj) : Headers :=
  (cycle.rotate 1).foldl (fun H o => H.bumpForeign o (· - 1)) H

/-- `is_cycle_garbage`. -/
def isCycleGarbage (H : Headers) (cycle : List Obj) : Bool :=
  cycle.all fun o => !(H o).isAlive

/-- `cancel_trial_decrements`: the counts. -/
def cancelTrialDecrements (H : Headers) (cycle : List Obj) : Headers :=
  (cycle.rotate 1).foldl (fun H o => H.bumpForeign o (· + 1)) H

/-- The detector, the headers, and the objects handed to `free_object` in this pass. -/
structure World where
  detector : CycleDetector
  headers : Headers
  freed : List Obj

namespace World

/-- `confirm_and_reclaim`. -/
def confirmAndReclaim (W : World) (cycle : List Obj) : World :=
  { W with
    detector := { W.detector with
      cyclesFound := W.detector.cyclesFound + 1
      objectsReclaimed := W.detector.objectsReclaimed + cycle.length
      graph := cycle.foldl Graph.remove W.detector.graph }
    freed := W.freed ++ cycle }

/-- `process_suspect`. -/
def processSuspect (W : World) (o : Obj) : World :=
  let D := W.detector
  if !D.isLocal o.actor then W
  else if !D.graph.keys.contains o then W
  else if !(W.headers o).isAlive then W
  else
    let g : Graph := D.graph.map fun p => (p.1, { p.2 with color := .white })
    match dfsFindCycle D.isLocal (g.length + 1) g [] o with
    | (none, g') => { W with detector := { D with graph := g' } }
    | (some cycle, g') =>
      let H := sendTrialDecrements W.headers cycle
      if isCycleGarbage H cycle then
        World.confirmAndReclaim ⟨{ D with graph := g' }, H, W.freed⟩ cycle
      else
        ⟨{ D with graph := cycle.foldl (fun g o => g.setColor o .black) g' },
          cancelTrialDecrements H cycle, W.freed⟩

end World

/-- `detect_cycles`. -/
def detectCycles (D : CycleDetector) (H : Headers) : World :=
  let D := { D with epoch := D.epoch + 1 }.refreshSuspects H
  D.suspects.foldl World.processSuspect ⟨{ D with suspects := [] }, H, []⟩

end Nulang.OrcaCycle
