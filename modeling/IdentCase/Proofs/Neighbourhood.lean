import IdentCase.Proofs.Decision
import IdentCase.Proofs.Tree.Comparison

/-! The context of a node is read from a few fields of the nodes near it, and from nothing else. -/
namespace IdentCase

open IdentCase.Tree

namespace Tree.Heap

/--
The fields from which the context of a node is read: of the node, of its parent and the object of
that, and of its grandparent, the sides of that and the property of the left one.
-/
inductive Reads (h : Heap) (p : Path) : Path → String → Prop
  | node {key : String} (hk : key ∈ ["name", "parent"]) : Reads h p p key
  | parent {m : Path} {key : String} (hm : h.get p "parent" = .object m)
      (hk : key ∈ ["type", "parent", "object", "key", "value"]) : Reads h p m key
  | object {m o : Path} {key : String} (hm : h.get p "parent" = .object m)
      (ho : h.get m "object" = .object o) (hk : key ∈ ["type", "name"]) : Reads h p o key
  | grandparent {m a : Path} {key : String} (hm : h.get p "parent" = .object m)
      (ha : h.get m "parent" = .object a) (hk : key ∈ ["type", "left", "right"]) : Reads h p a key
  | side {m a s : Path} {key : String} (hm : h.get p "parent" = .object m)
      (ha : h.get m "parent" = .object a) (hk : key ∈ ["left", "right"])
      (hs : h.get a key = .object s) : Reads h p s "type"
  | left {m a l : Path} (hm : h.get p "parent" = .object m) (ha : h.get m "parent" = .object a)
      (hl : h.get a "left" = .object l) : Reads h p l "property"
  | property {m a l q : Path} (hm : h.get p "parent" = .object m)
      (ha : h.get m "parent" = .object a) (hl : h.get a "left" = .object l)
      (hq : h.get l "property" = .object q) : Reads h p q "name"

/-- Whether two heaps agree on the fields from which the context of a node is read. -/
def SameContext (h h' : Heap) (p : Path) : Prop :=
  ∀ q key, h.Reads p q key → h'.get q key = h.get q key

/-- The nodes whose names may be compared with that of a node. -/
inductive NamedBeside (h : Heap) (p : Path) : Path → Prop
  | object {m o : Path} (hm : h.get p "parent" = .object m) (ho : h.get m "object" = .object o) :
      NamedBeside h p o
  | property {m a l q : Path} (hm : h.get p "parent" = .object m)
      (ha : h.get m "parent" = .object a) (hl : h.get a "left" = .object l)
      (hq : h.get l "property" = .object q) : NamedBeside h p q

/-- Whether the name of a node compares alike in two heaps with those that it is compared with. -/
def SameNames (h h' : Heap) (p : Path) : Prop :=
  ∀ q, h.NamedBeside p q → ComparesAlike h h' (h.get q "name") (h.get p "name")

/-- Whether two heaps give a node the same context, and report it alike. -/
structure JudgesAlike (h h' : Heap) (p : Path) : Prop where
  classify : h'.classify p = h.classify p
  effectiveParent : h'.effectiveParent p = h.effectiveParent p
  shouldReport : ∀ c name, h'.shouldReport c p name = h.shouldReport c p name

def contextKeys : List String :=
  ["name", "parent", "type", "object", "key", "value", "left", "right", "property"]

section
variable {h h' : Heap} {p q r : Path} {v v' : Value} {key k : String}

theorem mem_contextKeys (hr : h.Reads p q key) : key ∈ contextKeys := by
  have hsub : ∀ keys : List String, keys ⊆ contextKeys → key ∈ keys → key ∈ contextKeys :=
    fun _ hs hk => hs hk
  cases hr with
  | node hk => exact hsub _ (by decide) hk
  | parent _ hk => exact hsub _ (by decide) hk
  | object _ _ hk => exact hsub _ (by decide) hk
  | grandparent _ _ hk => exact hsub _ (by decide) hk
  | side => decide
  | left => decide
  | property => decide

/-- An edit of a field that is not read leaves the context as it is. -/
theorem sameContext_set (hn : ¬ h.Reads p r k) (v : Value) : SameContext h (h.set r k v) p := by
  intro q key hr
  have hne : ¬ (q = r ∧ key = k) := by
    rintro ⟨rfl, rfl⟩
    exact hn hr
  rw [get, get, get?_set, if_neg hne]

/-- An edit of an object that no comparison reads leaves the comparisons of names as they are. -/
theorem sameNames_set
    (hn : ∀ q, h.NamedBeside p q → ¬ h.Compares (h.get q "name") (h.get p "name") r) (v : Value) :
    SameNames h (h.set r k v) p := by
  intro q hq s hs
  have hne : s ≠ r := by
    rintro rfl
    exact hn q hq hs
  unfold node set
  dsimp only
  rw [if_neg hne]

theorem sameNames_of_isAtom (hname : (h.get p "name").isAtom) (h' : Heap) : SameNames h h' p :=
  fun _ _ => comparesAlike_of_immediate (Or.inr (Or.inl hname))

theorem hasType_eq (h : Heap) (q : Path) (type : String) :
    h.hasType q type = match h.get q "type" with
      | .str s => s == type
      | _ => false := by
  unfold hasType get
  cases h.get? q "type" with
  | none => rfl
  | some v => cases v <;> rfl

theorem hasType_congr (hg : h'.get q "type" = h.get q "type") (type : String) :
    h'.hasType q type = h.hasType q type := by
  rw [hasType_eq, hasType_eq, hg]

theorem corresponds_id (hv : v' = v) (ht : ∀ q, v = .object q → h'.get q "type" = h.get q "type") :
    Corresponds id h h' v v' where
  eq := by rw [hv, rename_id]
  hasType q hq type _ := hasType_congr (ht q hq) type

/-- What is read of a node gives it the context that it has in the other heap. -/
theorem SameContext.seenAlike (ha : SameContext h h' p) (hn : SameNames h h' p) :
    SeenAlike id h h' p where
  parent := by
    refine corresponds_id (ha p "parent" (.node (by decide))) fun m hm => ?_
    exact ha m "type" (.parent hm (by decide))
  member m hm _ := by
    constructor
    · refine corresponds_id (ha m "parent" (.parent hm (by decide))) fun a hma => ?_
      exact ha a "type" (.grandparent hm hma (by decide))
    · refine corresponds_id (ha m "object" (.parent hm (by decide))) fun o ho => ?_
      exact ha o "type" (.object hm ho (by decide))
  object m o hm _ ho := by
    have hname : h'.get o "name" = h.get o "name" := ha o "name" (.object hm ho (by decide))
    rw [id, id, hname, ha p "name" (.node (by decide))]
    exact (hn o (.object hm ho)).same_eq
  property q hq _ := by
    have hkey : h'.get q "key" = h.get q "key" := ha q "key" (.parent hq (by decide))
    have hvalue : h'.get q "value" = h.get q "value" := ha q "value" (.parent hq (by decide))
    constructor
    · refine corresponds_id (ha q "parent" (.parent hq (by decide))) fun a hqa => ?_
      exact ha a "type" (.grandparent hq hqa (by decide))
    · rw [id, id, hkey, hvalue]
  assignment m a hm _ hma _ := by
    constructor
    · refine corresponds_id (ha a "right" (.grandparent hm hma (by decide))) fun s hs => ?_
      exact ha s "type" (.side hm hma (by decide) hs)
    · refine corresponds_id (ha a "left" (.grandparent hm hma (by decide))) fun s hs => ?_
      exact ha s "type" (.side hm hma (by decide) hs)
  assigned m a l hm _ hma _ hl _ := by
    have hproperty : h'.get l "property" = h.get l "property" := ha l "property" (.left hm hma hl)
    refine ⟨by rw [id, rename_id, hproperty], fun q hq => ?_⟩
    have hname : h'.get q "name" = h.get q "name" := ha q "name" (.property hm hma hl hq)
    rw [id, id, hname, ha p "name" (.node (by decide))]
    exact (hn q (.property hm hma hl hq)).same_eq
  unnamed := by
    rw [id, ha p "name" (.node (by decide)), same_of_isAtom (Or.inl rfl),
      same_of_isAtom (Or.inl rfl)]

theorem SameContext.judgesAlike (ha : SameContext h h' p) (hn : SameNames h h' p) :
    JudgesAlike h h' p where
  classify := (ha.seenAlike hn).classify
  effectiveParent := by
    have hid : ∀ r : Except Fault Value, r.map (·.rename id) = r := by
      intro r
      cases r with
      | error e => rfl
      | ok v => exact congrArg Except.ok (rename_id v)
    exact (ha.seenAlike hn).effectiveParent.trans (hid _)
  shouldReport c name := (ha.seenAlike hn).shouldReport c name

end

end Tree.Heap

/--
Two heaps that have the same values in a few fields near a node find the same context for it, and
report it alike or fail alike, if they compare its name alike: in names that are lists or objects
what is within them counts as well. An edit of any other field of any other object changes nothing.
-/
theorem context_congr (h : Heap) (p : Path) :
    (∀ h', Heap.SameContext h h' p → Heap.SameNames h h' p → Heap.JudgesAlike h h' p) ∧
      ∀ r key v, ¬ h.Reads p r key →
        (∀ q, h.NamedBeside p q → ¬ h.Compares (h.get q "name") (h.get p "name") r) →
          Heap.JudgesAlike h (h.set r key v) p :=
  ⟨fun _ ha hn => ha.judgesAlike hn,
    fun _ _ v hr hn => (Heap.sameContext_set hr v).judgesAlike (Heap.sameNames_set hn v)⟩

/-- A member that is assigned is so whatever the operator of the assignment is. -/
theorem context_congr_assignedMember :
    (assignedMember.set [] "operator" (.str "+=")).classify [.key "property", .key "left"] =
        .ok .memberProperty ∧
      (assignedMember.set [] "operator" (.str "+=")).shouldReport {}
        [.key "property", .key "left"] (.str "a_b") = .ok true := by
  have hkey : ¬ assignedMember.Reads [.key "property", .key "left"] [] "operator" :=
    fun hr => absurd (Heap.mem_contextKeys hr) (by decide)
  have hname : (assignedMember.get [.key "property", .key "left"] "name").isAtom := rfl
  obtain ⟨hheaps, hedit⟩ := context_congr assignedMember [.key "property", .key "left"]
  have hclassify := (hheaps _ (Heap.sameContext_set hkey (.str "+="))
    (Heap.sameNames_of_isAtom hname _)).classify
  have hreport := (hedit [] "operator" (.str "+=") hkey fun _ _ =>
    Heap.not_compares_of_immediate (Or.inr (Or.inl hname))).shouldReport {} (.str "a_b")
  exact ⟨hclassify.trans rfl, hreport.trans rfl⟩

/-- A member access in which the names of the identifiers are two empty objects. -/
def oddlyNamedMember : Json :=
  .obj [("type", .str "MemberExpression"),
    ("object", .obj [("type", .str "Identifier"), ("name", .obj [])]),
    ("property", .obj [("type", .str "Identifier"), ("name", .obj [])])]

/-- A field in the name of an identifier is in no node near this, and yet makes a difference. -/
theorem not_context_congr_oddlyNamed : ¬ ∀ (h h' : Heap) (p : Path),
    h.hasType p "Identifier" → h'.hasType p "Identifier" → Heap.SameContext h h' p →
      Heap.JudgesAlike h h' p := by
  intro hall
  let h := (Heap.load oddlyNamedMember).set [.key "property"] "parent" (.object [])
  let h' := h.set [.key "name", .key "property"] "x" (.int 1)
  have hkey : ¬ h.Reads [.key "property"] [.key "name", .key "property"] "x" :=
    fun hr => absurd (Heap.mem_contextKeys hr) (by decide)
  have hclassify := (hall h h' [.key "property"] rfl rfl (Heap.sameContext_set hkey _)).classify
  have hbefore : h.classify [.key "property"] = .ok .memberObject := rfl
  have hafter : h'.classify [.key "property"] = .ok .memberProperty := rfl
  rw [hbefore, hafter] at hclassify
  cases hclassify

end IdentCase
