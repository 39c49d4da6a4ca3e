import Nexa.Model.Script.StackItem

/-! # OP_MERKLEROOT

`merkleproof.h` and `merkleproof.cpp`: a multiproof is a string of commands, some followed by the hash
of a sibling. Its evaluation climbs from one element after the other towards the root, with a stack of
the nodes that wait for their right sibling. On the way it collects, for each element, the index bits
and the depth reached so far and two adjacency bits.

A sibling hash is read at the cursor without a check of the length. What lies in memory behind the
proof is a parameter, `beyond`.
-/

namespace Nexa

/-- What the evaluation knows about an element: the index bits it has set, how many they are, and on
which sides it saw nothing next to the element. -/
structure ElementInfo where
  index : ℕ := 0
  depth : ℕ := 0
  adjacency : UInt8 := 3
deriving DecidableEq, Repr

/-- The loop of `updateIndex` from element `i` on. -/
def updateIndexFrom (elementPos depth bit : ℕ) (adjacencyMask : UInt8) :
    ℕ → Bool → List ElementInfo → List ElementInfo
  | _, _, [] => []
  | i, leftAdjacencySet, info :: rest =>
    if elementPos < i then info :: rest
    else if info.depth ≤ depth then
      let clearsLeft := adjacencyMask &&& 1 = 0 ∧ leftAdjacencySet = false
      let clearsRight := adjacencyMask &&& 2 = 0 ∧ i = elementPos
      let adjacency := if clearsLeft then info.adjacency &&& adjacencyMask else info.adjacency
      let adjacency := if clearsRight then adjacency &&& adjacencyMask else adjacency
      { index := info.index ||| bit * 2 ^ depth % 2 ^ 64, depth := depth + 1, adjacency } ::
        updateIndexFrom elementPos depth bit adjacencyMask (i + 1) (leftAdjacencySet || clearsLeft) rest
    else info :: updateIndexFrom elementPos depth bit adjacencyMask (i + 1) leftAdjacencySet rest

def updateIndex (infos : List ElementInfo) (elementPos depth bit : ℕ) (adjacencyMask : UInt8) : List ElementInfo :=
  updateIndexFrom elementPos depth bit adjacencyMask 0 false infos

/-- `MerkleProofStep`, the commands of a proof. -/
def multiproofLeftSibling : UInt8 := 0
def multiproofRightSibling : UInt8 := 1
def multiproofLeftIsEmpty : UInt8 := 2
def multiproofRightIsEmpty : UInt8 := 3
def multiproofPop : UInt8 := 4
def multiproofPush : UInt8 := 5

/-- The empty node that `Hash` returns. -/
def emptyNode : Bytes := [0]

def isEmptyNode (a : Bytes) : Bool := a = [] ∨ a = emptyNode

/-- The variables of the loop in `computeMultiproofRoot`. -/
structure MultiproofState where
  elementPos : ℕ := 0
  cur : Bytes
  depth : ℕ := 0
  evalStack : List Bytes := []
  infos : List ElementInfo
deriving DecidableEq, Repr

def MultiproofState.start (first : Bytes) (elements : List Bytes) : MultiproofState :=
  { cur := first, infos := elements.map fun _ => {} }

section MerkleProof

/-! `MerkleProof<Hasher, HashSize>`: the hasher, which throws for an undefined algorithm, and the
length of its hashes. -/

variable (hasher : Bytes → Option Bytes) (hashSize : ℕ) (beyond : ℕ → UInt8)

/-- `Hash` of two nodes: two empty ones stay empty, and a missing one is written as the byte 0. -/
def hashNodes (a b : Bytes) : Option Bytes :=
  if isEmptyNode a ∧ isEmptyNode b then some emptyNode
  else hasher ((if a = [] then emptyNode else a) ++ (if b = [] then emptyNode else b))

/-- The `HashSize` bytes at the cursor. -/
def siblingAt (rest : Bytes) : Bytes := rest.take hashSize ++ (List.range (hashSize - rest.length)).map beyond

/-- The state after the hash of one more level is in `cur`. -/
def MultiproofState.climb (state : MultiproofState) (cur : Bytes) (bit : ℕ) (adjacencyMask : UInt8) : MultiproofState :=
  { state with
    cur
    infos := updateIndex state.infos state.elementPos state.depth bit adjacencyMask
    depth := state.depth + 1 }

/-- One turn of the loop for the command `option` in front of `rest`, and by how many bytes it moves
the cursor on; `none` where the source returns without a root or the hasher throws. -/
def multiproofStep (elements : List Bytes) (option : UInt8) (rest : Bytes) (state : MultiproofState) :
    Option (MultiproofState × ℕ) :=
  if elements.length ≤ state.elementPos then none
  else if option = multiproofRightSibling then do
    let cur ← hasher (state.cur ++ siblingAt hashSize beyond rest)
    pure (state.climb cur 0 0xFD, hashSize)
  else if option = multiproofLeftSibling then do
    let cur ← hasher (siblingAt hashSize beyond rest ++ state.cur)
    pure (state.climb cur 1 0xFE, hashSize)
  else if option = multiproofRightIsEmpty then do
    let cur ← hashNodes hasher state.cur []
    pure (state.climb cur 0 0xFF, 0)
  else if option = multiproofLeftIsEmpty then do
    let cur ← hashNodes hasher [] state.cur
    pure (state.climb cur 1 0xFF, 0)
  else if option = multiproofPop then
    match state.evalStack with
    | [] => none
    | top :: evalStack => do
      let cur ← hashNodes hasher top state.cur
      pure ({ state with evalStack }.climb cur 1 0xFF, 0)
  else if option = multiproofPush then
    match elements[state.elementPos + 1]? with
    | none => none
    | some next =>
      some ({ elementPos := state.elementPos + 1, cur := next, depth := 0, evalStack := state.cur :: state.evalStack
              infos := updateIndex state.infos state.elementPos state.depth 0 0xFF }, 0)
  else some (state, 0)

/-- The loop over the proof; `skip` bytes of a sibling hash lie between the cursor and the next command. -/
def multiproofLoop (elements : List Bytes) : Bytes → ℕ → MultiproofState → Option MultiproofState
  | [], _, state => some state
  | _ :: rest, skip + 1, state => multiproofLoop elements rest skip state
  | option :: rest, 0, state => do
    let (state, skip) ← multiproofStep hasher hashSize beyond elements option rest state
    multiproofLoop elements rest skip state

/-- `computeMultiproofRoot`: the root and what was found about the elements. -/
def computeMultiproofRoot (elements : List Bytes) (proof : Bytes) : Option (Bytes × List ElementInfo) :=
  match elements with
  | [] => none
  | first :: _ => do
    let state ← multiproofLoop hasher hashSize beyond elements proof 0 (.start first elements)
    if state.evalStack ≠ [] then none
    else if state.elementPos ≠ elements.length - 1 then none
    else some (state.cur, state.infos)

end MerkleProof

/-- The hash function of the two algorithms that are not SHA-256; its digests have 20 bytes. -/
structure Ripemd160 where
  hash : Bytes → Bytes
  length_hash : ∀ message, (hash message).length = 20

section OpMerkleRoot

variable (ripemd160 : Ripemd160) (beyond : ℕ → UInt8) (alg : ℕ)

/-- `MpHash` of a whole message; an undefined algorithm throws. -/
def mpHash (message : Bytes) : Option Bytes :=
  match alg with
  | 0 => some (Sha256.hash message)
  | 1 => some (ripemd160.hash message)
  | 2 => some (ripemd160.hash (Sha256.hash message))
  | 3 => some (Sha256.hash (Sha256.hash message))
  | _ => none

/-- `HashMpLeaf`: the empty element stays empty. -/
def hashMpLeaf (element : Bytes) : Option Bytes :=
  if element = [] then some [] else mpHash ripemd160 alg element

/-- The length of the hashes of an algorithm; undefined ones count as 32 bytes. -/
def algSize : ℕ := if alg = 1 ∨ alg = 2 then 20 else 32

/-- The bits of the option field above the two algorithms. -/
def hashElementsBit : ℕ := 16
def returnIndexBit : ℕ := 17
def returnDepthBit : ℕ := 18
def returnAdjacencyBit : ℕ := 19

/-- `USED_BITS`: the four flags and four bits for each algorithm. -/
def usedBits : ℕ := 0xF0F0F

variable (opt : ℕ)

def nodeAlg : ℕ := opt % 256
def leafAlg : ℕ := opt / 256 % 256

/-- The guard `if (bad) return set_error(&error, …)`. -/
def failIf (bad : Prop) [Decidable bad] (error : ScriptError) : Except ScriptError Unit :=
  if bad then .error error else .ok ()

/-- An element from the stack: hashed here, or already a hash or empty. -/
def loadElement (item : StackItem) : Except ScriptError Bytes :=
  let element := item.asVch
  if opt.testBit hashElementsBit then
    match hashMpLeaf ripemd160 (leafAlg opt) element with
    | some hash => .ok hash
    | none => .error .invalidParameter
  else if isEmptyNode element ∨ element.length = algSize (leafAlg opt) then .ok element
  else .error .invalidParameter

/-- What the operation leaves on the stack, the root on top. -/
def merkleRootResults (root : Bytes) (infos : List ElementInfo) : List StackItem :=
  let pushed (bit : ℕ) (part : ElementInfo → ℕ) : List StackItem :=
    if opt.testBit bit then (infos.map fun info => StackItem.ofUint64 (part info)).reverse else []
  .vch root :: pushed returnIndexBit ElementInfo.index ++ pushed returnDepthBit ElementInfo.depth
    ++ pushed returnAdjacencyBit fun info => info.adjacency.toNat

/-- `ScriptMachine::opMerkleRoot` on a stack whose head is the top. -/
def opMerkleRoot (stack : List StackItem) : Except ScriptError (List StackItem) :=
  match stack with
  | optionItem :: countItem :: items => do
    failIf (stack.length < 4) .invalidStackOperation
    let opt ← optionItem.asUint64 false
    failIf (opt &&& usedBits ≠ opt) .invalidBitRange
    let numElements ← countItem.asUint64 false
    failIf (numElements < 1) .invalidParameter
    failIf (256 < numElements) .invalidParameter
    failIf (stack.length < 3 + numElements) .invalidStackOperation
    failIf (algSize (nodeAlg opt) ≠ algSize (leafAlg opt)) .invalidParameter
    let elements ← (items.take numElements).mapM (loadElement ripemd160 opt)
    match items.drop numElements with
    | [] => .error .invalidStackOperation
    | proofItem :: remaining => do
      let proof ← proofItem.data
      match computeMultiproofRoot (mpHash ripemd160 (nodeAlg opt)) (algSize (nodeAlg opt)) beyond elements proof with
      | none => .error .invalidParameter
      | some (root, infos) => do
        failIf (root = []) .invalidParameter
        pure (merkleRootResults opt root infos ++ remaining)
  | _ => .error .invalidStackOperation

end OpMerkleRoot

end Nexa
