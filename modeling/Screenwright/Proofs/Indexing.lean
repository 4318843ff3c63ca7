import Mathlib.Data.List.Induction
import Screenwright.Proofs.Rewriting

namespace Screenwright.Proofs.Indexing
open Json Outline Decode Design Numerals Values Texts Containers Grammar Outcomes Rewriting

/-- Nodes under the keys that they are stored with. -/
abbrev Store := Catalog Node

def entry (node : Node) : String × Node := (node.id, node)

def listed (s : Store) : List Node := s.entries.map Prod.snd

/-- Reads a document to a store. Of the members with one key the last one counts, in the place of
the first; then every node gets its key for its id. -/
def decodeStore (depth : Nat) (o : Outline) : Except Fault Store := do
  let members ← Catalog.ofList <$> mapOf nodeRecord.decode depth o
  return .ofList (members.entries.map fun (id, node) => (id, { node with id := id }))

def parseStore (source : String) : Except Error Store := whole decodeStore source

/-- Reads the nodes of a document, one for every member, in the order of the members. -/
def decodeNodes (depth : Nat) (o : Outline) : Except Fault (List Node) := do
  let members ← mapOf nodeRecord.decode depth o
  return members.map fun (id, node) => { node with id := id }

def parseNodes (source : String) : Except Error (List Node) := whole decodeNodes source

/-- What designs come about by: a document, which starts anew, and nodes that are put in, into the
design itself or into a design that is handed on. -/
inductive Operation where
  | parse (source : String)
  | insert (node : Node)
  | withNode (node : Node)

/-- How operations build something. -/
structure Builder (α : Type) where
  empty : α
  parse : String → Except Error α
  insert : α → Node → α

namespace Builder
variable {α β : Type} {b : Builder α} {b' : Builder β} {f : α → β}

def step (b : Builder α) (a : α) : Operation → Except Error α
  | .parse source => b.parse source
  | .insert node | .withNode node => .ok (b.insert a node)

def run (b : Builder α) (ops : List Operation) : Except Error α := ops.foldlM b.step b.empty

/-- A view of what is built that follows every operation. -/
structure Shows (b : Builder α) (f : α → β) (b' : Builder β) : Prop where
  empty : f b.empty = b'.empty
  parse : ∀ source, b'.parse source = f <$> b.parse source
  insert : ∀ a node, f (b.insert a node) = b'.insert (f a) node

theorem Shows.step (h : Shows b f b') (a : α) (op : Operation) :
    b'.step (f a) op = f <$> b.step a op := by
  cases op with
  | parse source => exact h.parse source
  | insert node | withNode node => exact congrArg Except.ok (h.insert a node).symm

theorem Shows.run (h : Shows b f b') (ops : List Operation) : b'.run ops = f <$> b.run ops := by
  have hfrom (a : α) : ops.foldlM b'.step (f a) = f <$> ops.foldlM b.step a := by
    induction ops generalizing a with
    | nil => rfl
    | cons op ops ih =>
      rw [List.foldlM_cons, List.foldlM_cons, h.step]
      cases b.step a op with
      | error e => rfl
      | ok a' => exact ih a'
  rw [Builder.run, ← h.empty, hfrom]
  rfl

end Builder

/-- Designs as they are built. -/
def designs : Builder DesignTree := ⟨∅, DesignTree.parse, DesignTree.insert⟩

/-- Stores of nodes as they are built: a node that is put in is stored under its id. -/
def stores : Builder Store := ⟨∅, parseStore, fun s node => s.insert node.id node⟩

/-- All nodes that have come, in their order, since a document was last read. -/
def histories : Builder (List Node) := ⟨[], parseNodes, fun ns node => ns ++ [node]⟩

def stored (t : DesignTree) : Store :=
  ⟨t.nodes.map entry, by simpa [Function.comp_def, entry] using t.nodup⟩

/-- A store of the nodes that have come. -/
structure Indexed (history : List Node) (s : Store) : Prop where
  keyed : ∀ e ∈ s.entries, e.1 = e.2.id
  distinct : ((listed s).map Node.id).Nodup
  complete : ∀ id, id ∈ s.keys ↔ id ∈ history.map Node.id
  ordered : (listed s).Pairwise fun node node' =>
    (history.map Node.id).idxOf node.id < (history.map Node.id).idxOf node'.id
  latest : ∀ id, s.get? id = history.reverse.find? (·.id = id)

/-- Stores that are the same up to one node, which is new at the end of the second one or stands in
the place of the node with its id. -/
structure Replaced (node : Node) (s s' : Store) : Prop where
  added : node.id ∉ s.keys → listed s' = listed s ++ [node]
  replaced : ∀ front old back, listed s = front ++ old :: back → old.id = node.id →
    listed s' = front ++ node :: back

variable {s : Store} {t : DesignTree} {ns : List Node} {node : Node}

theorem listed_stored (t : DesignTree) : listed (stored t) = t.nodes := by
  simp [listed, stored, entry, Function.comp_def]

theorem keys_stored (t : DesignTree) : (stored t).keys = t.ids := by
  simp [Catalog.keys, stored, entry, DesignTree.ids, Function.comp_def]

theorem get?_stored (t : DesignTree) (id : String) : (stored t).get? id = t.get? id := by
  rw [Catalog.get?, stored, List.find?_map, Option.map_map]
  exact Option.map_id'

theorem stored_insert (t : DesignTree) (node : Node) :
    stored (t.insert node) = (stored t).insert node.id node :=
  Catalog.ext (Keyed.map_put_comm Prod.fst (fun _ => rfl) node t.nodes)

theorem stored_ofList (ns : List Node) :
    stored (.ofList ns) = .ofList (ns.map entry) := by
  refine Catalog.ext ?_
  change (DesignTree.ofList ns).nodes.map entry = _
  rw [Catalog.entries_ofList, DesignTree.nodes_ofList]
  exact Keyed.map_foldl_put Prod.fst (fun _ => rfl) ns []

theorem whole_map {α β : Type} (f : α → β) (decode : Nat → Outline → Except Fault α)
    (source : String) : whole (fun depth o => f <$> decode depth o) source =
      f <$> whole decode source := by
  unfold whole
  dsimp only
  cases decode depthLimit (Outline.read source.toList) with
  | error fault => rfl
  | ok a => cases skipBlank (Outline.read source.toList).stop <;> rfl

theorem parse_eq_nodes (source : String) :
    DesignTree.parse source = .ofList <$> parseNodes source := by
  have hdecode : decodeTree = fun depth o => DesignTree.ofList <$> decodeNodes depth o := by
    funext depth o
    rw [decodeTree, decodeNodes]
    cases mapOf nodeRecord.decode depth o <;> rfl
  rw [DesignTree.parse, hdecode, whole_map, parseNodes]

/-- A document is read to a store of the design that it is read to. -/
theorem parseStore_eq (source : String) :
    parseStore source = stored <$> DesignTree.parse source := by
  have hdecode : decodeStore = fun depth o => stored <$> decodeTree depth o := by
    funext depth o
    rw [decodeStore, decodeTree]
    cases mapOf nodeRecord.decode depth o with
    | error fault => rfl
    | ok members =>
      refine congrArg Except.ok ?_
      have hkept : (Catalog.ofList members).entries.map
          (fun e : String × Node => (e.1, { e.2 with id := e.1 })) =
          (Catalog.ofList (members.map fun e => (e.1, { e.2 with id := e.1 }))).entries := by
        rw [Catalog.entries_ofList, Catalog.entries_ofList]
        exact Keyed.map_foldl_put Prod.fst (fun _ => rfl) members []
      dsimp only
      rw [hkept, Catalog.ofList_entries, stored_ofList, List.map_map]
      rfl
  rw [parseStore, hdecode, whole_map, DesignTree.parse]

theorem shows_histories : histories.Shows DesignTree.ofList designs :=
  ⟨rfl, parse_eq_nodes, DesignTree.ofList_concat⟩

theorem shows_designs : designs.Shows stored stores :=
  ⟨rfl, parseStore_eq, stored_insert⟩

/-- Ids stand in the order in which they first came. -/
theorem ordered_ofList (ns : List Node) : (DesignTree.ofList ns).ids.Pairwise fun id id' =>
    (ns.map Node.id).idxOf id < (ns.map Node.id).idxOf id' := by
  induction ns using List.reverseRecOn with
  | nil => exact .nil
  | append_singleton ns node ih =>
    have hsame : ∀ id ∈ (DesignTree.ofList ns).ids,
        ((ns ++ [node]).map Node.id).idxOf id = (ns.map Node.id).idxOf id := by
      intro id hid
      rw [List.map_append, List.idxOf_append_of_mem (DesignTree.mem_ids_ofList.mp hid)]
    have hordered : (DesignTree.ofList ns).ids.Pairwise fun id id' =>
        ((ns ++ [node]).map Node.id).idxOf id < ((ns ++ [node]).map Node.id).idxOf id' :=
      ih.imp_of_mem fun hid hid' h => by rwa [hsame _ hid, hsame _ hid']
    rw [DesignTree.ofList_concat, DesignTree.ids_insert]
    split
    · exact hordered
    · next hnew =>
      refine List.pairwise_append.mpr ⟨hordered, List.pairwise_singleton _ _, ?_⟩
      intro id hid id' hid'
      obtain rfl := List.mem_singleton.mp hid'
      have hnew : node.id ∉ ns.map Node.id := fun h => hnew (DesignTree.mem_ids_ofList.mpr h)
      rw [hsame id hid, List.map_append, List.idxOf_append_of_notMem hnew]
      exact Nat.lt_add_right _ (List.idxOf_lt_length_of_mem (DesignTree.mem_ids_ofList.mp hid))

/-- The store of the nodes that have come is what it should be. -/
theorem indexed_ofList (ns : List Node) : Indexed ns (stored (.ofList ns)) := by
  constructor
  case keyed =>
    intro e he
    obtain ⟨node, _, rfl⟩ := List.mem_map.mp he
    rfl
  case distinct =>
    rw [listed_stored]
    exact (DesignTree.ofList ns).nodup
  case complete =>
    intro id
    rw [keys_stored, DesignTree.mem_ids_ofList]
  case ordered =>
    rw [listed_stored]
    have hordered := ordered_ofList ns
    rwa [DesignTree.ids, List.pairwise_map] at hordered
  case latest =>
    intro id
    rw [get?_stored, DesignTree.get?_ofList]

theorem replaced_insert (t : DesignTree) (node : Node) :
    Replaced node (stored t) (stored (t.insert node)) := by
  constructor
  case added =>
    intro hnew
    rw [keys_stored] at hnew
    rw [listed_stored, listed_stored]
    exact Keyed.put_of_not_mem hnew
  case replaced =>
    intro front old back hold hid
    rw [listed_stored] at hold ⊢
    have hfront : old.id ∉ front.map Node.id := by
      have hnodup := t.nodup
      rw [hold, List.map_append, List.map_cons] at hnodup
      intro h
      exact (List.nodup_append.mp hnodup).2.2 _ h _ List.mem_cons_self rfl
    change Keyed.put Node.id node t.nodes = _
    rw [hold, Keyed.put_append_cons hid hfront]

def nodesOf? (ds : DocMembers) : Option (List Node) :=
  (ds.mapM memberNode?).map fun es => es.map fun e => { e.2 with id := e.1 }

theorem parseNodes_of_writes {source : String} {ds : DocMembers}
    (h : Writes source.toList (.object ds)) : (parseNodes source).toOption = nodesOf? ds := by
  obtain ⟨hdoc, hstop⟩ := (stands_of_writes h).reads
  obtain ⟨start, members, stop, ho, hmembers⟩ := hdoc
  have heach := toOption_mapM ((hasDocMembers_iff.mp hmembers).imp fun _ _ => toOption_member)
  rw [parseNodes, toOption_whole hstop, ho, nodesOf?, ← heach]
  change ((members.mapM fun m => (do return (← m.1.name, ← nodeRecord.decode (depthLimit - 1) m.2) :
    Except Fault (String × Node))) >>= pure >>= fun es =>
      (.ok (es.map fun e => { e.2 with id := e.1 }) : Except Fault (List Node))).toOption = _
  rw [bind_pure, toOption_bind, Option.map_eq_bind]
  rfl

theorem nodesOf?_concat {ds : DocMembers} {m : Option String × Doc}
    (h : nodesOf? (ds ++ [m]) = some ns) :
    ∃ ns' id node, nodesOf? ds = some ns' ∧ memberNode? m = some (id, node) ∧
      ns = ns' ++ [{ node with id := id }] := by
  rw [nodesOf?, List.mapM_append, List.mapM_cons, List.mapM_nil] at h
  rw [nodesOf?]
  cases hds : ds.mapM memberNode? with
  | none => simp [hds] at h
  | some es =>
    cases hm : memberNode? m with
    | none => simp [hds, hm] at h
    | some e => exact ⟨_, e.1, e.2, rfl, rfl, by simpa [hds, hm, eq_comm] using h⟩

/-- A document with one more member is read to the store of the document without it, with the node
of that member put in. -/
theorem replaced_of_writes {source source' : String} {ds : DocMembers} {m : Option String × Doc}
    {s' : Store} (h : Writes source.toList (.object ds))
    (h' : Writes source'.toList (.object (ds ++ [m]))) (hs' : parseStore source' = .ok s') :
    ∃ s id node, parseStore source = .ok s ∧ memberNode? m = some (id, node) ∧
      Replaced { node with id := id } s s' := by
  have hstore (source : String) :
      parseStore source = (fun ns => stored (.ofList ns)) <$> parseNodes source := by
    rw [parseStore_eq, parse_eq_nodes]
    cases parseNodes source <;> rfl
  rw [hstore, map_ok_iff] at hs'
  obtain ⟨ns', hns', rfl⟩ := hs'
  rw [← toOption_eq_some_iff, parseNodes_of_writes h'] at hns'
  obtain ⟨ns, id, node, hns, hm, rfl⟩ := nodesOf?_concat hns'
  rw [← parseNodes_of_writes h, toOption_eq_some_iff] at hns
  refine ⟨stored (.ofList ns), id, node, by rw [hstore, hns]; rfl, hm, ?_⟩
  rw [DesignTree.ofList_concat]
  exact replaced_insert (.ofList ns) { node with id := id }

/-- Whatever a design comes about by, its nodes are stored under their own ids, which are distinct
and in the order in which they first came. A node under a known id takes the place of the one there,
and all others stay as they are, whether it is put in or comes as a further member of a document. -/
theorem stores_indexed (ops : List Operation) :
    stores.run ops = stored <$> designs.run ops ∧
      (∀ s, stores.run ops = .ok s → ∃ ns, histories.run ops = .ok ns ∧ Indexed ns s ∧
        ∀ node, Replaced node s (stores.insert s node)) ∧
      ∀ source ds, Writes source.toList (.object ds) →
        (parseNodes source).toOption = nodesOf? ds ∧
          ∀ source' m s', Writes source'.toList (.object (ds ++ [m])) →
            parseStore source' = .ok s' → ∃ s id node, parseStore source = .ok s ∧
              memberNode? m = some (id, node) ∧ Replaced { node with id := id } s s' := by
  have hstores := shows_designs.run ops
  refine ⟨hstores, fun s hs => ?_, fun source ds h =>
    ⟨parseNodes_of_writes h, fun source' m s' h' hs' => replaced_of_writes h h' hs'⟩⟩
  rw [hstores, map_ok_iff] at hs
  obtain ⟨t, ht, rfl⟩ := hs
  rw [shows_histories.run, map_ok_iff] at ht
  obtain ⟨ns, hns, rfl⟩ := ht
  refine ⟨ns, hns, indexed_ofList ns, fun node => ?_⟩
  rw [← shows_designs.insert]
  exact replaced_insert (.ofList ns) node

def twoNodes : DocMembers := [(some "a", .object []), (some "b", .object [])]

def textNode : Option String × Doc := (some "a", .object [(some "type", .string (some "Text"))])

def twoSource : String := "\x7b\"a\":\x7b\x7d,\"b\":\x7b\x7d\x7d"

/-- The first of two nodes comes again behind them. -/
def againSource : String :=
  "\x7b\"a\":\x7b\x7d,\"b\":\x7b\x7d,\"a\":\x7b\"type\":\"Text\"\x7d\x7d"

/-- A document, a node with a new id and a node with a known one. -/
def threeTimes : List Operation :=
  [.parse againSource, .insert ⟨"c", .image, false, ∅, [], none, none⟩,
    .withNode ⟨"b", .button, false, ∅, [], none, none⟩]

theorem writes_members {texts : List (List Char × List Char)} {ds : DocMembers}
    (h : WritesMembers texts ds) :
    Writes ('\x7b' :: (joined (texts.map memberText) ++ ['\x7d'])) (.object ds) :=
  ⟨texts, [], h, rfl, padded_self _⟩

theorem stores_indexed_again :
    ∃ s, stores.run threeTimes = .ok s ∧
      (listed s).map (fun node => (node.id, node.kind)) =
        [("a", .text), ("b", .button), ("c", .image)] ∧
      (∃ ns, Indexed ns s) ∧
      Writes twoSource.toList (.object twoNodes) ∧
      Writes againSource.toList (.object (twoNodes ++ [textNode])) ∧
      ∃ two again id node, parseStore twoSource = .ok two ∧ parseStore againSource = .ok again ∧
        memberNode? textNode = some (id, node) ∧ Replaced { node with id := id } two again := by
  have ha : WritesString "\"a\"".toList (some "a") := @writes_plain ['a'] _ rfl rfl
  have hb : WritesString "\"b\"".toList (some "b") := @writes_plain ['b'] _ rfl rfl
  have hempty : Writes "\x7b\x7d".toList (.object []) := @writes_members [] [] trivial
  have htype : WritesMembers [("\"type\"".toList, "\"Text\"".toList)]
      [(some "type", .string (some "Text"))] :=
    ⟨⟨@writes_plain "type".toList _ rfl rfl, @writes_plain "Text".toList _ rfl rfl⟩, trivial⟩
  have htwo : Writes twoSource.toList (.object twoNodes) :=
    @writes_members [("\"a\"".toList, "\x7b\x7d".toList), ("\"b\"".toList, "\x7b\x7d".toList)] _
      ⟨⟨ha, hempty⟩, ⟨hb, hempty⟩, trivial⟩
  have hagain : Writes againSource.toList (.object (twoNodes ++ [textNode])) :=
    @writes_members [("\"a\"".toList, "\x7b\x7d".toList), ("\"b\"".toList, "\x7b\x7d".toList),
      ("\"a\"".toList, "\x7b\"type\":\"Text\"\x7d".toList)] _
      ⟨⟨ha, hempty⟩, ⟨hb, hempty⟩, ⟨ha, writes_members htype⟩, trivial⟩
  have hrun : ((stores.run threeTimes).toOption.map fun s =>
      (listed s).map fun node => (node.id, node.kind)) =
      some [("a", .text), ("b", .button), ("c", .image)] := by decide +kernel
  have hread : (parseStore againSource).toOption.isSome = true := by decide +kernel
  obtain ⟨s, hs, hlisted⟩ := Option.map_eq_some_iff.mp hrun
  obtain ⟨again, hs'⟩ := Option.isSome_iff_exists.mp hread
  rw [toOption_eq_some_iff] at hs hs'
  obtain ⟨_, hindexed, hread⟩ := stores_indexed threeTimes
  obtain ⟨ns, _, hns, _⟩ := hindexed s hs
  obtain ⟨two, id, node, htwo', hm, hreplaced⟩ :=
    (hread twoSource twoNodes htwo).2 againSource textNode again hagain hs'
  exact ⟨s, hs, hlisted, ⟨ns, hns⟩, htwo, hagain, two, again, id, node, htwo', hs', hm, hreplaced⟩

end Screenwright.Proofs.Indexing
