import Nexa.Proofs.MerkleCall
import Nexa.Proofs.MerkleTree

/-! # The positions that OP_MERKLEROOT returns

The bits of an element's run lead to the push that closes it; the levels above are filled in from the
elements behind it, by their count of levels. The outcome is the element's place in the tree exactly if
the selected leaves of either child of the root lie on one level, on the right no deeper than on the left.
-/

namespace Nexa

open List

theorem overlayRuns_eq (runs : List Run) : overlayRuns runs = runs.foldr overlay [] := by
  induction runs with
  | nil => rfl
  | cons run runs ih => rw [overlayRuns, ih, foldr_cons]

theorem Mark.bits_ofRuns (upper : ℕ∞) (runs : List Run) : (ofRuns upper runs).map (fun mark => mark.run.map Climb.bit) =
      suffixOverlays [] (runs.map (map Climb.bit)) := by
  induction runs generalizing upper with
  | nil => rfl
  | cons run runs ih =>
    have bits (runs : List Run) : (runs.foldr overlay []).map Climb.bit =
        (runs.map (map Climb.bit)).foldr overlay [] := by
      induction runs with
      | nil => rfl
      | cons run runs ih => rw [foldr_cons, map_overlay, ih, map_cons, foldr_cons]
    rw [ofRuns, map_cons, ih, overlayRuns_eq, bits, map_cons, suffixOverlays, foldr_cons]

/-- Depth and index. -/
def ElementInfo.position (info : ElementInfo) : ℕ × ℕ := (info.depth, info.index)

def pathPosition (path : List Bool) : ℕ × ℕ := (path.length, pathIndex path)

namespace MerkleTree

variable {hashSize : ℕ} {tree left right child sibling : MerkleTree hashSize} {bit : Bool}

def closedBits (tree : MerkleTree hashSize) : List (List Bool) := tree.climbs.closed.map (map Climb.bit)

def currentBits (tree : MerkleTree hashSize) : List Bool := tree.climbs.current.map Climb.bit

/-- The bits of the runs. -/
def bitRuns (tree : MerkleTree hashSize) : List (List Bool) := tree.runs.map (map Climb.bit)

theorem bitRuns_eq (tree : MerkleTree hashSize) : tree.bitRuns = tree.closedBits ++ [tree.currentBits] := by
  simp [bitRuns, runs, closedBits, currentBits]

theorem closedBits_join (some : child.selected ≠ []) (none : sibling.selected = []) :
    (join bit child sibling).closedBits = child.closedBits := by
  rw [closedBits, climbs_join some none, closedBits]

theorem currentBits_join (some : child.selected ≠ []) (none : sibling.selected = []) :
    (join bit child sibling).currentBits = child.currentBits ++ [bit] := by
  rw [currentBits, climbs_join some none, map_append, map_singleton, bit_passing, currentBits]

section

variable (someLeft : left.selected ≠ []) (someRight : right.selected ≠ [])
include someLeft someRight

theorem closedBits_node_of_both :
    (node left right).closedBits = left.closedBits ++ (left.currentBits ++ [false]) :: right.closedBits := by
  simp [closedBits, climbs_node_of_both someLeft someRight, currentBits, Climb.bit]

theorem currentBits_node_of_both : (node left right).currentBits = right.currentBits ++ [true] := by
  simp [climbs_node_of_both someLeft someRight, currentBits, Climb.bit]

theorem bitRuns_node_of_both : (node left right).bitRuns =
      (left.closedBits ++ [left.currentBits ++ [false]]) ++ (right.closedBits ++ [right.currentBits ++ [true]]) := by
  simp [bitRuns, runs_node_of_both someLeft someRight, closedBits, currentBits, Climb.bit]

end

/-- What the evaluation finds out about the selected leaves. -/
def infos (tree : MerkleTree hashSize) : List ElementInfo := (Mark.ofRuns ⊤ tree.runs).map Mark.info

theorem paths_eq_nil (none : tree.selected = []) : tree.paths = [] := by
  induction tree with
  | empty => rfl
  | leaf selected hash =>
    cases selected with
    | false => rfl
    | true => cases none
  | node left right ihLeft ihRight =>
    obtain ⟨noLeft, noRight⟩ := append_eq_nil_iff.mp none
    rw [paths, ihLeft noLeft, ihRight noRight]
    rfl

theorem paths_join (none : sibling.selected = []) :
    (join bit child sibling).paths = child.paths.map (· ++ [bit]) := by
  cases bit <;> simp [join, paths, paths_eq_nil none]

/-- The run of the last selected leaf goes all the way; the others go up to where they are closed. -/
theorem bitRuns_prefix (some : tree.selected ≠ []) :
    ∃ closedPaths, tree.paths = closedPaths ++ [tree.currentBits] ∧ Forall₂ (· <+: ·) tree.closedBits closedPaths := by
  have raise {bits paths : List (List Bool)} {bit : Bool} (closed : Forall₂ (· <+: ·) bits paths) :
      Forall₂ (· <+: ·) bits (paths.map (· ++ [bit])) := by
    rw [forall₂_map_right_iff]
    exact closed.imp fun _ _ start => start.trans (prefix_append ..)
  induction tree, some using selected_induction with
  | leaf hash => exact ⟨[], rfl, .nil⟩
  | pass bit child sibling someChild none _ ih =>
    obtain ⟨closedPaths, all, closed⟩ := ih
    refine ⟨closedPaths.map (· ++ [bit]), ?_, ?_⟩
    · simp [paths_join none, all, currentBits_join someChild none]
    · rw [closedBits_join someChild none]
      exact raise closed
  | both left right someLeft someRight _ ihLeft ihRight =>
    obtain ⟨leftPaths, allLeft, closedLeft⟩ := ihLeft
    obtain ⟨rightPaths, allRight, closedRight⟩ := ihRight
    refine ⟨leftPaths.map (· ++ [false]) ++ (left.currentBits ++ [false]) :: rightPaths.map (· ++ [true]), ?_, ?_⟩
    · simp [paths, allLeft, allRight, currentBits_node_of_both someLeft someRight]
    · rw [closedBits_node_of_both someLeft someRight]
      exact rel_append (raise closedLeft) (.cons (prefix_refl _) (raise closedRight))

/-- All selected leaves lie on one level. -/
def Level (tree : MerkleTree hashSize) : Prop := ∀ path ∈ tree.paths, ∀ other ∈ tree.paths, path.length = other.length

/-- The selected leaves of either child of the root lie on one level, on the right no deeper than on the left. -/
def Aligned : MerkleTree hashSize → Prop
  | empty | leaf _ _ => True
  | node left right =>
    left.Level ∧ right.Level ∧ ∀ path ∈ left.paths, ∀ other ∈ right.paths, other.length ≤ path.length

theorem currentBits_mem_paths (some : tree.selected ≠ []) : tree.currentBits ∈ tree.paths := by
  obtain ⟨closedPaths, all, _⟩ := bitRuns_prefix some
  simp [all]

theorem Level.of_node (level : (node left right).Level) :
    left.Level ∧ right.Level ∧ ∀ path ∈ left.paths, ∀ other ∈ right.paths, path.length = other.length := by
  have onLeft {path : List Bool} (member : path ∈ left.paths) : path ++ [false] ∈ (node left right).paths :=
    mem_append_left _ (mem_map_of_mem member)
  have onRight {path : List Bool} (member : path ∈ right.paths) : path ++ [true] ∈ (node left right).paths :=
    mem_append_right _ (mem_map_of_mem member)
  refine ⟨fun path member other member' => ?_, fun path member other member' => ?_, fun path member other member' => ?_⟩
  · simpa using level _ (onLeft member) _ (onLeft member')
  · simpa using level _ (onRight member) _ (onRight member')
  · simpa using level _ (onLeft member) _ (onRight member')

theorem Level.of_join (level : (join bit child sibling).Level) : child.Level := by
  cases bit with
  | false => exact level.of_node.1
  | true => exact level.of_node.2.1

theorem aligned_join (none : sibling.selected = []) : (join bit child sibling).Aligned ↔ child.Level := by
  have nothing : sibling.paths = [] := paths_eq_nil none
  cases bit <;> simp [join, Aligned, Level, nothing]

/-- The runs of the tree, laid over each other and over whatever follows, show the paths on top of it. -/
def ShowsPaths (tree : MerkleTree hashSize) : Prop :=
  ∀ tail, suffixOverlays tail tree.bitRuns = tree.paths.map (overlay · tail)

/-- One level above a subtree whose runs show its paths. -/
theorem ShowsPaths.raise (shows : tree.ShowsPaths) (some : tree.selected ≠ []) (level : tree.Level) (bit : Bool)
    (tail : List Bool) :
    suffixOverlays tail (tree.closedBits ++ [tree.currentBits ++ [bit]]) =
      (tree.paths.map (· ++ [bit])).map (overlay · tail) := by
  rw [suffixOverlays_extend, ← bitRuns_eq, shows, map_map]
  refine map_congr_left fun path member => ?_
  have same : path.length = tree.currentBits.length := level _ member _ (currentBits_mem_paths some)
  have raised : overlay path (tree.currentBits ++ [bit]) = path ++ [bit] := by
    rw [overlay_append_singleton, if_pos same.le, overlay, same, drop_length, append_nil]
  rw [← overlay_assoc, raised, Function.comp_apply]

/-- A node shows its paths if the leaves on the right do not lie deeper. -/
theorem ShowsPaths.node_of_both (showsLeft : left.ShowsPaths) (showsRight : right.ShowsPaths)
    (someLeft : left.selected ≠ []) (someRight : right.selected ≠ []) (levelLeft : left.Level)
    (levelRight : right.Level) (lower : ∀ path ∈ left.paths, ∀ other ∈ right.paths, other.length ≤ path.length) :
    (node left right).ShowsPaths := by
  intro tail
  have shownRight := showsRight.raise someRight levelRight true tail
  rw [bitRuns_node_of_both someLeft someRight, suffixOverlays_append, showsLeft.raise someLeft levelLeft, paths,
    map_append]
  congr 1
  -- What the left runs are laid over starts with the path of the first selected leaf on the right.
  obtain ⟨first, others, onRight⟩ := exists_cons_of_ne_nil (ne_nil_of_mem (currentBits_mem_paths someRight))
  rw [onRight] at shownRight lower
  rw [foldr_overlay_eq_of_suffixOverlays shownRight, map_map, map_map]
  refine map_congr_left fun path member => ?_
  have short : (first ++ [true]).length ≤ (path ++ [false]).length := by
    simpa using lower path member first (mem_cons_self ..)
  have hidden : overlay (path ++ [false]) (first ++ [true]) = path ++ [false] := by
    rw [overlay, drop_of_length_le short, append_nil]
  rw [Function.comp_apply, Function.comp_apply, ← overlay_assoc, hidden]

theorem ShowsPaths.join (shows : child.ShowsPaths) (some : child.selected ≠ []) (none : sibling.selected = [])
    (level : child.Level) : (join bit child sibling).ShowsPaths := by
  intro tail
  rw [bitRuns_eq, closedBits_join some none, currentBits_join some none, shows.raise some level, paths_join none]

theorem Level.showsPaths (level : tree.Level) (some : tree.selected ≠ []) : tree.ShowsPaths := by
  induction tree, some using selected_induction with
  | leaf hash => exact fun tail => rfl
  | pass bit child sibling someChild none _ ih => exact (ih level.of_join).join someChild none level.of_join
  | both left right someLeft someRight _ ihLeft ihRight =>
    obtain ⟨levelLeft, levelRight, same⟩ := level.of_node
    exact (ihLeft levelLeft).node_of_both (ihRight levelRight) someLeft someRight levelLeft levelRight
      fun path member other member' => (same path member other member').ge

theorem Aligned.showsPaths (aligned : tree.Aligned) (some : tree.selected ≠ []) : tree.ShowsPaths := by
  induction tree, some using selected_induction with
  | leaf hash => exact fun tail => rfl
  | pass bit child sibling someChild none _ _ =>
    have level := (aligned_join none).mp aligned
    exact (level.showsPaths someChild).join someChild none level
  | both left right someLeft someRight _ _ _ =>
    exact (aligned.1.showsPaths someLeft).node_of_both (aligned.2.1.showsPaths someRight) someLeft someRight aligned.1
      aligned.2.1 aligned.2.2

section

variable (some : tree.selected ≠ [])

include some

theorem length_bitRuns_le :
    Forall₂ (fun bits bound => bits.length ≤ bound) tree.bitRuns (tree.paths.map length) := by
  obtain ⟨closedPaths, all, closed⟩ := bitRuns_prefix some
  rw [all, bitRuns_eq, forall₂_map_right_iff]
  exact rel_append (closed.imp fun _ _ start => start.length_le) (.cons le_rfl .nil)

/-- If all paths of a subtree come out with their length and one more level, they have one length, and
neither what the runs are laid over nor what they show is longer. -/
theorem level_of_lengths {bit : Bool} {tail : List Bool}
    (lengths : (suffixOverlays tail (tree.closedBits ++ [tree.currentBits ++ [bit]])).map length =
      tree.paths.map (·.length + 1)) :
    tree.Level ∧ tail.length ≤ tree.currentBits.length + 1 ∧
      ((tree.closedBits ++ [tree.currentBits ++ [bit]]).foldr overlay tail).length = tree.currentBits.length + 1 := by
  have bounds : (suffixOverlays (overlay (tree.currentBits ++ [bit]) tail) tree.bitRuns).map length =
      (tree.paths.map length).map (· + 1) := by
    rw [bitRuns_eq, ← suffixOverlays_extend, lengths, map_map]
    rfl
  obtain ⟨-, reached⟩ := length_eq_of_suffixOverlays Nat.one_pos (length_bitRuns_le some) bounds
  rw [length_overlay] at reached
  have top := fun path member => reached _ (mem_map_of_mem (f := length) (a := path) member)
  have current := top _ (currentBits_mem_paths some)
  refine ⟨fun path member other member' => ?_, ?_, ?_⟩
  · have first := top path member
    have second := top other member'
    omega
  · omega
  · obtain ⟨first, others, all⟩ := exists_cons_of_ne_nil (ne_nil_of_mem (currentBits_mem_paths some))
    have head := top first (by simp [all])
    cases shown : suffixOverlays tail (tree.closedBits ++ [tree.currentBits ++ [bit]]) with
    | nil => simp [shown, all] at lengths
    | cons shownFirst shownOthers =>
      rw [shown, all] at lengths
      have length : shownFirst.length = first.length + 1 := (cons.inj lengths).1
      rw [foldr_overlay_eq_of_suffixOverlays shown]
      omega

theorem aligned_of_lengths (lengths : (suffixOverlays [] tree.bitRuns).map length = tree.paths.map length) :
    tree.Aligned := by
  induction tree, some using selected_induction with
  | leaf hash => trivial
  | pass bit child sibling someChild none _ _ =>
    rw [bitRuns_eq, closedBits_join someChild none, currentBits_join someChild none, paths_join none] at lengths
    exact (aligned_join none).mpr (level_of_lengths someChild (lengths.trans (by simp))).1
  | both left right someLeft someRight _ _ _ =>
    rw [bitRuns_node_of_both someLeft someRight, suffixOverlays_append, map_append, paths, map_append] at lengths
    have count : left.closedBits.length + 1 = left.paths.length := by
      simpa [bitRuns_eq] using (length_bitRuns_le someLeft).length_eq
    obtain ⟨onLeft, onRight⟩ := append_inj lengths (by simp [length_suffixOverlays, count])
    obtain ⟨levelRight, -, shownRight⟩ := level_of_lengths someRight (onRight.trans (by simp))
    obtain ⟨levelLeft, lower, -⟩ := level_of_lengths someLeft (onLeft.trans (by simp))
    refine ⟨levelLeft, levelRight, fun path member other member' => ?_⟩
    have lastLeft := levelLeft path member _ (currentBits_mem_paths someLeft)
    have lastRight := levelRight other member' _ (currentBits_mem_paths someRight)
    omega

/-- The runs give the places of the leaves exactly if the tree is aligned. -/
theorem positions_infos_iff : tree.infos.map ElementInfo.position = tree.paths.map pathPosition ↔ tree.Aligned := by
  have shown : tree.infos.map ElementInfo.position = (suffixOverlays [] tree.bitRuns).map pathPosition := by
    rw [bitRuns, ← Mark.bits_ofRuns ⊤, infos]
    simp [Mark.info, ElementInfo.position, pathPosition]
  rw [shown]
  constructor
  · intro positions
    have depths := congrArg (map Prod.fst) positions
    rw [map_map, map_map] at depths
    exact aligned_of_lengths some depths
  · intro aligned
    have shows := aligned.showsPaths some []
    simp only [overlay_nil, map_id'] at shows
    rw [shows]

end

theorem length_le_raise {closed : List Run} {current : Run} {bound : ℕ} (step : Climb) {higher : ℕ}
    (below : ∀ run ∈ closed ++ [current], run.length ≤ bound) (room : bound < higher) :
    ∀ run ∈ closed ++ [current ++ [step]], run.length ≤ higher := by
  intro run member
  obtain member | member := mem_append.mp member
  · exact (below run (mem_append_left _ member)).trans room.le
  · have last := below current (by simp)
    rw [mem_singleton.mp member, length_append, length_singleton]
    omega

theorem height_lt_join : child.height < (join bit child sibling).height := by
  cases bit <;> simp [join, height]

theorem length_le_height (some : tree.selected ≠ []) : ∀ run ∈ tree.runs, run.length ≤ tree.height := by
  induction tree, some using selected_induction with
  | leaf hash => simp [runs, climbs]
  | pass bit child sibling someChild none _ ih =>
    rw [runs, climbs_join someChild none]
    exact length_le_raise _ ih height_lt_join
  | both left right someLeft someRight _ ihLeft ihRight =>
    have onLeft := length_le_raise .push ihLeft (Nat.lt_succ_of_le (le_max_left _ right.height))
    have onRight := length_le_raise .pop ihRight (Nat.lt_succ_of_le (le_max_right left.height _))
    intro run member
    rw [runs_node_of_both someLeft someRight, mem_append] at member
    exact member.elim (onLeft run) (onRight run)

/-- The state after the proof. -/
def proved (digest : Bytes → Digest hashSize) (tree : MerkleTree hashSize) : MultiproofState :=
  { elementPos := tree.selected.length - 1, cur := tree.root digest, depth := tree.climbs.current.length
    infos := tree.infos }

theorem multiproofLoop_proofBytes (digest : Bytes → Digest hashSize) (beyond : ℕ → UInt8) (wide : 2 ≤ hashSize)
    (short : tree.height ≤ 64) {first : Digest hashSize} {others : List (Digest hashSize)}
    (selection : tree.selected = first :: others) (rest : Bytes) :
    multiproofLoop (hasherOf digest) hashSize beyond (tree.selected.map Subtype.val) (tree.proofBytes digest ++ rest) 0
        (.start first.val (tree.selected.map Subtype.val)) =
      multiproofLoop (hasherOf digest) hashSize beyond (tree.selected.map Subtype.val) rest 0 (tree.proved digest) := by
  have some : tree.selected ≠ [] := by simp [selection]
  have count := length_closed some
  have unread : (tree.selected.map Subtype.val).map (fun _ => ({} : ElementInfo)) =
      tree.runs.map fun _ => Mark.fresh.info := by
    rw [map_const', map_const', length_map, runs, length_append, length_singleton, count]
    rfl
  have found : applyRun tree.climbs.closed.length 0 tree.climbs.current
      (applyRuns 0 tree.climbs.closed (tree.runs.map fun _ => Mark.fresh.info)) = tree.infos := by
    have applied := applyRuns_infos tree.runs fun run member => (length_le_height some run member).trans short
    rw [runs, applyRuns_append, Nat.zero_add] at applied
    exact applied
  have evaluated : tree.Evaluates digest (tree.selected.map Subtype.val) := evaluates wide some
  have arrived := evaluated 0 first others [] [] ((tree.selected.map Subtype.val).map fun _ => {}) selection
    (by rw [drop_zero, append_nil])
  rw [Climbs.arrived, unread, Nat.zero_add, found] at arrived
  rw [MultiproofState.start, unread, proved, ← count, Nat.add_sub_cancel]
  exact multiproofLoop_bytes (complete_proof tree) (by simp [loaded, selection]) arrived (by simp [← count]) rest

end MerkleTree

/-- The defined hash algorithms. -/
inductive MerkleRootAlg where
  | sha256
  | ripemd160
  | hash160
  | hash256
deriving DecidableEq, Repr

namespace MerkleRootAlg

def code : MerkleRootAlg → ℕ
  | sha256 => 0
  | ripemd160 => 1
  | hash160 => 2
  | hash256 => 3

def size : MerkleRootAlg → ℕ
  | sha256 | hash256 => 32
  | ripemd160 | hash160 => 20

def digest (ripemd : Ripemd160) : (alg : MerkleRootAlg) → Bytes → Digest alg.size
  | sha256, message => ⟨Sha256.hash message, Sha256.length_hash message⟩
  | ripemd160, message => ⟨ripemd.hash message, ripemd.length_hash message⟩
  | hash160, message => ⟨ripemd.hash (Sha256.hash message), ripemd.length_hash _⟩
  | hash256, message => ⟨Sha256.hash (Sha256.hash message), Sha256.length_hash _⟩

theorem mpHash_code (ripemd : Ripemd160) (alg : MerkleRootAlg) :
    mpHash ripemd alg.code = hasherOf (alg.digest ripemd) := by
  cases alg <;> rfl

theorem algSize_code (alg : MerkleRootAlg) : algSize alg.code = alg.size := by
  cases alg <;> rfl

theorem two_le_size (alg : MerkleRootAlg) : 2 ≤ alg.size := by
  cases alg <;> decide

end MerkleRootAlg

/-- A call with the selected leaves of a tree and the proof for them. -/
structure TreeCall (ripemd160 : Ripemd160) extends MerkleRootCall ripemd160 where
  alg : MerkleRootAlg
  alg_eq : nodeAlg opt = alg.code
  tree : MerkleTree alg.size
  elements_eq : elements = tree.selected.map Subtype.val
  height_le : tree.height ≤ 62

namespace TreeCall

variable {ripemd160 : Ripemd160} (beyond : ℕ → UInt8) (call : TreeCall ripemd160)

def root : Bytes := call.tree.root (call.alg.digest ripemd160)

def proof : Bytes := call.tree.proofBytes (call.alg.digest ripemd160)

/-- The loop of the evaluation, from a command on. -/
def loop (bytes : Bytes) (state : MultiproofState) : Option MultiproofState :=
  multiproofLoop (mpHash ripemd160 (nodeAlg call.opt)) (algSize (nodeAlg call.opt)) beyond call.elements bytes 0 state

/-- The proof takes the loop from the first element to a state after the last one, whatever would follow. -/
def ConsumesAll : Prop :=
  ∃ first final, call.elements.head? = some first ∧ final.elementPos + 1 = call.elements.length ∧
    ∀ rest, call.loop beyond (call.proof ++ rest) (.start first call.elements) = call.loop beyond rest final

theorem selected_ne_nil : call.tree.selected ≠ [] := by
  have many := call.many
  have length := call.length_elements
  intro none
  rw [call.elements_eq, none, map_nil, length_nil] at length
  omega

theorem loop_proof {first : Digest call.alg.size} {others : List (Digest call.alg.size)}
    (selection : call.tree.selected = first :: others) (rest : Bytes) :
    call.loop beyond (call.proof ++ rest) (.start first.val call.elements) =
      call.loop beyond rest (call.tree.proved (call.alg.digest ripemd160)) := by
  unfold loop
  rw [call.alg_eq, call.alg.mpHash_code, call.alg.algSize_code, call.elements_eq]
  exact MerkleTree.multiproofLoop_proofBytes _ beyond call.alg.two_le_size (call.height_le.trans (by omega)) selection
    rest

theorem consumesAll : call.ConsumesAll beyond := by
  obtain ⟨first, others, selection⟩ := exists_cons_of_ne_nil call.selected_ne_nil
  refine ⟨first.val, call.tree.proved (call.alg.digest ripemd160), ?_, ?_, call.loop_proof beyond selection⟩
  · rw [call.elements_eq, selection, map_cons, head?_cons]
  · rw [MerkleTree.proved, call.elements_eq, length_map, selection, length_cons, Nat.add_sub_cancel]

theorem compute_proof : call.compute beyond call.proof = some (call.root, call.tree.infos) := by
  obtain ⟨first, others, selection⟩ := exists_cons_of_ne_nil call.selected_ne_nil
  have evaluated := call.loop_proof beyond selection []
  rw [append_nil, loop, loop, multiproofLoop] at evaluated
  rw [MerkleRootCall.compute, call.elements_eq, selection, map_cons, computeMultiproofRoot, ← map_cons, ← selection,
    ← call.elements_eq, evaluated]
  simp [MerkleTree.proved, root, call.elements_eq, selection]

theorem opMerkleRoot_proof : opMerkleRoot ripemd160 beyond (call.stack call.proof) =
      .ok (merkleRootResults call.opt call.root call.tree.infos ++ call.remaining) := by
  have length : call.root.length = call.alg.size :=
    MerkleTree.length_root (MerkleTree.isEmpty_eq_false_of_selected call.selected_ne_nil)
  have wide := call.alg.two_le_size
  have present : call.root ≠ [] := fun none => by
    rw [none, length_nil] at length
    omega
  rw [call.opMerkleRoot_stack, compute_proof]
  exact if_neg present

/-- The evaluation succeeds, consumes all leaves and bytes and returns the root and the place of each leaf. -/
def ReturnsPositions : Prop := ∃ infos, opMerkleRoot ripemd160 beyond (call.stack call.proof) =
      .ok (merkleRootResults call.opt call.root infos ++ call.remaining) ∧
    call.compute beyond call.proof = some (call.root, infos) ∧ call.ConsumesAll beyond ∧
    infos.map ElementInfo.position = call.tree.paths.map pathPosition

/-- All but the places is always right; the places are right exactly if the tree is aligned. -/
theorem returnsPositions_iff : call.ReturnsPositions beyond ↔ call.tree.Aligned := by
  rw [← MerkleTree.positions_infos_iff call.selected_ne_nil]
  constructor
  · rintro ⟨infos, -, computed, -, positions⟩
    rw [compute_proof] at computed
    cases computed
    exact positions
  · intro positions
    exact ⟨_, call.opMerkleRoot_proof beyond, call.compute_proof beyond, call.consumesAll beyond, positions⟩

/-- A leaf beside two others, of which the first is selected too. -/
def unaligned : TreeCall .unused where
  optionItem := .vch [0x03, 0x03, 0x06]
  countItem := .vch [0x02]
  items := [.vch (replicate 32 1), .vch (replicate 32 2)]
  remaining := []
  opt := 0x60303
  elements := [replicate 32 1, replicate 32 2]
  option_eq := rfl
  count_eq := rfl
  usedOnly := rfl
  many := by decide
  few := by decide
  sameSize := rfl
  loads := rfl
  alg := .hash256
  alg_eq := rfl
  tree := .node (.leaf true ⟨replicate 32 1, rfl⟩)
    (.node (.leaf true ⟨replicate 32 2, rfl⟩) (.leaf false ⟨replicate 32 3, rfl⟩))
  elements_eq := rfl
  height_le := by decide

/-- The first and the last of three leaves, the second of which is the left sibling of the last. -/
def separated : TreeCall .unused where
  optionItem := .vch [0x03, 0x03, 0x08]
  countItem := .vch [0x02]
  items := [.vch (replicate 32 1), .vch (replicate 32 4)]
  remaining := []
  opt := 0x80303
  elements := [replicate 32 1, replicate 32 4]
  option_eq := rfl
  count_eq := rfl
  usedOnly := rfl
  many := by decide
  few := by decide
  sameSize := rfl
  loads := rfl
  alg := .hash256
  alg_eq := rfl
  tree := .node (.node (.leaf true ⟨replicate 32 1, rfl⟩) .empty)
    (.node (.leaf false ⟨replicate 32 3, rfl⟩) (.leaf true ⟨replicate 32 4, rfl⟩))
  elements_eq := rfl
  height_le := by decide

/-- The leaf at depth 1 and index 0 is returned with the depth and the index of the other one, 2 and 2. -/
theorem unaligned_positions : unaligned.tree.paths.map pathPosition = [(1, 0), (2, 2)] ∧
      opMerkleRoot .unused cleared (unaligned.stack unaligned.proof) =
        .ok [.vch unaligned.root, .ofUint64 2, .ofUint64 2, .ofUint64 2, .ofUint64 2] ∧
      ¬unaligned.ReturnsPositions cleared := by
  have found : unaligned.tree.infos = [{ index := 2, depth := 2 }, { index := 2, depth := 2, adjacency := 1 }] := by
    decide
  refine ⟨rfl, ?_, ?_⟩
  · have index : Nat.testBit 0x60303 returnIndexBit = true := by decide
    have depth : Nat.testBit 0x60303 returnDepthBit = true := by decide
    have adjacency : Nat.testBit 0x60303 returnAdjacencyBit = false := by decide
    have option : unaligned.opt = 0x60303 := rfl
    have remaining : unaligned.remaining = [] := rfl
    simp [opMerkleRoot_proof, found, merkleRootResults, option, remaining, index, depth, adjacency]
  · rintro ⟨infos, -, computed, -, positions⟩
    rw [compute_proof] at computed
    cases computed
    cases positions

end TreeCall

end Nexa
