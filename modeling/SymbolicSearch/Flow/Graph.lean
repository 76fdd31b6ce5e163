/-
The flow graph: the blocks of all methods met so far and the relations
between them. It grows and never shrinks. A method's own relations are
drawn when the method is registered; a call and the returns from it are
drawn when the call is seen to happen, so the graph holds the calls that
were observed and not all that are possible.

Blocks are numbered by position, so a look-up is an index. Relations are
kept as a list without repetition; every question about them is answered
as a set, so the order in which they came does not show.
-/
import SymbolicSearch.Fault
import SymbolicSearch.Flow.Block
import SymbolicSearch.Flow.Relation
import SymbolicSearch.IdMap

namespace SymbolicSearch

/-- One block leads to another in a certain way. -/
structure Edge where
  source : BlockNo
  target : BlockNo
  relation : Relation
deriving DecidableEq

/-- What the graph keeps of a registered method. -/
structure Registered where
  name : String
  /-- The method's blocks, in the order of its code. -/
  blocks : List BlockNo
  /-- The blocks that leave the method. -/
  exits : List BlockNo
deriving DecidableEq

/-- The blocks met so far, their relations, and the methods they are of. -/
structure FlowGraph where
  blocks : Array Block
  edges : List Edge
  methods : IdMap Registered
  /-- The methods whose coverage counts, registered or not. -/
  zone : IdSet
deriving DecidableEq

namespace FlowGraph

def empty : FlowGraph := ⟨#[], [], ∅, ∅⟩

instance : Inhabited FlowGraph := ⟨empty⟩

/-- The number of blocks. -/
def size (g : FlowGraph) : Nat := g.blocks.size

-- ============================================== look-up

/-- Block numbers asked for from outside are held in 32 bits. -/
def numberBound : Nat := UInt32.size

/-- The block with a number, taken modulo `numberBound`. -/
def block? (g : FlowGraph) (id : Nat) : Option Block := g.blocks[id % numberBound]?

/-- The first of the listed blocks that holds an index, with its number. -/
def locate? (g : FlowGraph) (ids : List BlockNo) (index : Nat) : Option (BlockNo × Block) :=
  ids.findSome? fun id => (g.blocks[id]?.filter (·.holds index)).map (id, ·)

/-- The number of the first of the listed blocks that holds an index. -/
def holder? (g : FlowGraph) (ids : List BlockNo) (index : Nat) : Option BlockNo :=
  (g.locate? ids index).map Prod.fst

/-- The block of the site that a statement stands for, with its number. -/
def locate (g : FlowGraph) (stmt : Stmt) : Except Fault (BlockNo × Block) :=
  match (g.methods.find? stmt.site.method).bind fun m => g.locate? m.blocks stmt.site.index with
  | some found => .ok found
  | none => .error (.unplaced stmt.site)

/-- The number of the block of the site that a statement stands for. -/
def blockAt (g : FlowGraph) (stmt : Stmt) : Except Fault BlockNo := (g.locate stmt).map Prod.fst

/-- The blocks of a method, in the order of its code. -/
def blocksOf (g : FlowGraph) (m : MethodNo) : List BlockNo :=
  ((g.methods.find? m).map (·.blocks)).getD []

/-- The blocks that leave a method. -/
def exitsOf (g : FlowGraph) (m : MethodNo) : List BlockNo :=
  ((g.methods.find? m).map (·.exits)).getD []

/-- The block at which a method is entered. -/
def entryOf (g : FlowGraph) (m : MethodNo) : Option BlockNo := (g.blocksOf m).head?

def nameOf (g : FlowGraph) (m : MethodNo) : Option String := (g.methods.find? m).map (·.name)

/-- The sites of a block's instructions. -/
def sitesOf (g : FlowGraph) (id : Nat) : List Site := ((g.block? id).map Block.sites).getD []

/-- The blocks that a block leads to in a certain way. -/
def targets (g : FlowGraph) (id : BlockNo) (r : Relation) : IdSet :=
  IdSet.ofList <| g.edges.filterMap fun e =>
    if e.source = id ∧ e.relation = r then some e.target else none

/-- The blocks that lead to a block in a certain way. -/
def sources (g : FlowGraph) (id : BlockNo) (r : Relation) : IdSet :=
  IdSet.ofList <| g.edges.filterMap fun e =>
    if e.target = id ∧ e.relation = r then some e.source else none

/-- Where the blocks begin that were made since the graph had `mark`
blocks. -/
def freshFrom (g : FlowGraph) (mark : Nat) : BlockNo := min mark g.size

/-- The blocks made since the graph had `mark` blocks. Numbers are dense,
so a watcher of a graph keeps one number, the size it saw last. -/
def since (g : FlowGraph) (mark : Nat) : List BlockNo :=
  List.range' (g.freshFrom mark) (g.size - g.freshFrom mark)

/-- The counts of a graph, for a person to read. -/
def describe (g : FlowGraph) : String :=
  "BlockGraph \x7b blocks: " ++ toString g.size ++ ", edges: " ++ toString g.edges.length ++
    ", methods: " ++ toString g.methods.size ++ " \x7d"

theorem mem_targets {g : FlowGraph} {a b : BlockNo} {r : Relation} :
    b ∈ g.targets a r ↔ (⟨a, b, r⟩ : Edge) ∈ g.edges := by
  rw [targets, IdSet.mem_ofList, List.mem_filterMap]
  constructor
  · intro h
    obtain ⟨⟨s, t, r'⟩, hmem, h⟩ := h
    by_cases hc : s = a ∧ r' = r
    · simp only [hc, and_self, if_true, Option.some.injEq] at h
      obtain ⟨rfl, rfl⟩ := hc
      exact h ▸ hmem
    · simp [hc] at h
  · intro hmem
    exact ⟨_, hmem, by simp⟩

theorem mem_sources {g : FlowGraph} {a b : BlockNo} {r : Relation} :
    a ∈ g.sources b r ↔ (⟨a, b, r⟩ : Edge) ∈ g.edges := by
  rw [sources, IdSet.mem_ofList, List.mem_filterMap]
  constructor
  · intro h
    obtain ⟨⟨s, t, r'⟩, hmem, h⟩ := h
    by_cases hc : t = b ∧ r' = r
    · simp only [hc, and_self, if_true, Option.some.injEq] at h
      obtain ⟨rfl, rfl⟩ := hc
      exact h ▸ hmem
    · simp [hc] at h
  · intro hmem
    exact ⟨_, hmem, by simp⟩

-- ============================================== growth

/-- The graph with one relation more, if it is a new one. -/
def link (g : FlowGraph) (e : Edge) : FlowGraph :=
  if e ∈ g.edges then g else { g with edges := g.edges ++ [e] }

def linkAll (g : FlowGraph) (es : List Edge) : FlowGraph := es.foldl link g

@[simp] theorem mem_edges_link {g : FlowGraph} {e e' : Edge} :
    e' ∈ (g.link e).edges ↔ e' = e ∨ e' ∈ g.edges := by
  unfold link
  split
  · next h =>
    constructor
    · exact Or.inr
    · intro h
      rcases h with rfl | h'
      · exact h
      · exact h'
  · simp [or_comm]

@[simp] theorem mem_edges_linkAll {g : FlowGraph} {e : Edge} {es : List Edge} :
    e ∈ (g.linkAll es).edges ↔ e ∈ es ∨ e ∈ g.edges := by
  induction es generalizing g with
  | nil => simp [linkAll]
  | cons x rest ih =>
    show e ∈ ((g.link x).linkAll rest).edges ↔ _
    rw [ih, mem_edges_link, List.mem_cons, or_left_comm, or_assoc]

/-- The relations of one run of a routine whose blocks are `ids`: where
its last instruction goes on, and where any of its instructions may be
caught. -/
def edgesFrom (g : FlowGraph) (r : Routine) (ids : List BlockNo) (id : BlockNo) (s : Span) :
    List Edge :=
  let onward := ((r.code[s.last]?.map (·.targets)).getD []).filterMap fun i =>
    (g.holder? ids i).map fun b => ⟨id, b, .next⟩
  let caught := ((r.code.drop s.first).take (s.last + 1 - s.first)).flatMap fun ins =>
    ins.handlers.filterMap fun i => (g.holder? ids i).map fun b => ⟨id, b, .rescue⟩
  onward ++ caught

/-- The graph with a routine's blocks and relations put in. -/
def install (g : FlowGraph) (r : Routine) : FlowGraph :=
  let spans := r.spans
  let ids := List.range' g.size spans.length
  let made := List.zipWith (Block.ofSpan r (r.method ∈ g.zone)) ids spans
  let grown := { g with blocks := g.blocks ++ made.toArray }
  let linked := grown.linkAll <| (ids.zip spans).flatMap fun p => grown.edgesFrom r ids p.1 p.2
  { linked with
    methods := linked.methods.insert r.method
      ⟨r.name, ids, r.exits.filterMap (grown.holder? ids)⟩ }

/-- Registers a routine, unless its method is registered already. -/
def register (g : FlowGraph) (r : Routine) : FlowGraph :=
  if g.methods.contains r.method then g else g.install r

/-- Registers a method through a loader, unless it is registered
already. The routine that the loader gives is put in whatever method it
names. -/
def discover (load : Loader) (m : MethodNo) (g : FlowGraph) : Except Fault FlowGraph :=
  if g.methods.contains m then .ok g
  else
    match load m with
    | .error reason => .error (.loadFailed m reason)
    | .ok none => .error (.unknownMethod m)
    | .ok (some r) => .ok (g.install r)

/-- The relations of one call: into the callee, and from each of its
exits back to where the caller goes on. -/
def callEdges (g : FlowGraph) (site entry back : BlockNo) (callee : MethodNo) : List Edge :=
  ⟨site, entry, .call⟩ :: (g.exitsOf callee).map fun x => ⟨x, back, .back⟩

/-- Records a call that was seen to happen. The callee is registered
first and stays registered even if one of the three statements then has
no block; relations are drawn only when all three have one. -/
def observe (load : Loader) (site back entry : Stmt) (g : FlowGraph) :
    FlowGraph × Except Fault Unit :=
  match g.discover load entry.site.method with
  | .error e => (g, .error e)
  | .ok g =>
    let placed : Except Fault (BlockNo × BlockNo × BlockNo) := do
      let s ← g.blockAt site
      let e ← g.blockAt entry
      let b ← g.blockAt back
      return (s, e, b)
    match placed with
    | .error e => (g, .error e)
    | .ok (s, e, b) => (g.linkAll (g.callEdges s e b entry.site.method), .ok ())

-- ============================================== coverage

/-- The graph with one block changed, if it has that block. -/
def modifyBlock (g : FlowGraph) (id : BlockNo) (f : Block → Block) : FlowGraph :=
  { g with blocks := g.blocks.modify id f }

def mapBlocks (g : FlowGraph) (f : Block → Block) : FlowGraph :=
  { g with blocks := g.blocks.map f }

/-- Makes a method's coverage count, also for blocks still to come. -/
def enterZone (g : FlowGraph) (m : MethodNo) : FlowGraph :=
  (g.blocksOf m).foldl (fun g id => g.modifyBlock id fun b => { b with inZone := true })
    { g with zone := g.zone.insert m }

/-- Lets no method's coverage count any more. -/
def clearZone (g : FlowGraph) : FlowGraph :=
  { g with zone := ∅ }.mapBlocks fun b => { b with inZone := false }

/-- Notes that a test has covered a block, its number taken modulo
`numberBound`. -/
def cover (g : FlowGraph) (id : Nat) : FlowGraph :=
  g.modifyBlock (id % numberBound) fun b => { b with covered := true }

/-- Forgets all that tests have covered. -/
def uncover (g : FlowGraph) : FlowGraph := g.mapBlocks fun b => { b with covered := false }

end FlowGraph

end SymbolicSearch
