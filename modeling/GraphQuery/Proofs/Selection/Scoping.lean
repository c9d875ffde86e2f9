import GraphQuery.Proofs.Selection.Derivation
import GraphQuery.Proofs.Selection.Placement

/-!
# Selection.Scoping — the trees of well-scoped expressions are typed

An expression is well scoped when roots start queries and nothing else, and selectors start at
their element. The tree of such an expression can be selected from the type that it starts at.

- `Expression.StartsAt`, `Expression.WellScoped` : where the parts of an expression start
- `Schema.typed_expansion` : what a type brings along can be selected from it
- `Scope.Offers` : the types that a tree in a scope can be selected from
- `Compiler.Derives.placed` : every tree is typed where it starts
- `Compiler.typed_of_tree`, `Compiler.rootField_of_tree` : the trees of well-scoped queries
-/

set_option autoImplicit false

namespace GraphQuery

/-- What a chain of steps starts at: the query, or the element of a selector. -/
inductive Start where
  | query
  | element
  deriving DecidableEq, Repr

namespace Expression

/-- The chain of an expression starts at a root or at the current element, and every selector and
every selection of a fragment in it starts at the element. -/
inductive StartsAt : Start → Expression → Prop where
  | root {domainType : String} {entryPoint : Option String} :
      StartsAt .query (.root domainType entryPoint)
  | current : StartsAt .element .current
  | member {start : Start} {target : Expression} {member : Member} :
      StartsAt start target → StartsAt start (.member target member)
  | project {start : Start} {source selector : Expression} :
      StartsAt start source → StartsAt .element selector →
      StartsAt start (.project source selector)
  | projectMany {start : Start} {source selector : Expression} :
      StartsAt start source → StartsAt .element selector →
      StartsAt start (.projectMany source selector)
  | filter {start : Start} {source : Expression} {arguments : ArgumentSource} :
      StartsAt start source → StartsAt start (.filter source arguments)
  | including {start : Start} {source selector : Expression} :
      StartsAt start source → StartsAt .element selector →
      StartsAt start (.including source selector)
  | cast {start : Start} {source : Expression} {domainType : String} :
      StartsAt start source → StartsAt start (.cast source domainType)
  | withFragment {start : Start} {source selection : Expression} {name domainType : String} :
      StartsAt start source → StartsAt .element selection →
      StartsAt start (.withFragment source name domainType selection)

/-- Roots stand at the start of the query only, and selectors start at their element. -/
def WellScoped (e : Expression) : Prop :=
  ∃ start, e.StartsAt start

end Expression

/-! ## What a type brings along -/

namespace Schema

variable {s : Schema}

theorem typed_leafFields (hs : s.Consistent) (owner : TypeRef) :
    Selection.AllTyped s owner (s.leafFields owner) := by
  intro node hnode
  rcases mem_leafFields hnode with ⟨fields, field, hfields, hfield, harguments, rfl⟩
  have hfound := hs.field?_of_mem hfields hfield
  rcases field with ⟨name, type, arguments⟩
  subst harguments
  exact .node ⟨hfound, by simp⟩ (fun _ => rfl) nofun

theorem typed_subtypeNode (hs : s.Consistent) {defaultScalars : Bool} {kind : TypeKind}
    {type owner : TypeRef} (hd : s.Declares (.named kind type)) (hk : kind.isComposite = true) :
    Selection.Typed s owner (s.subtypeNode defaultScalars kind type) :=
  .of_children ⟨hd, hk⟩ (fun _ _ => hk)
    fun node hnode => typed_leafFields hs type node (mem_subtypeNode hnode)

/-- The selections that a type brings along can be selected from it. -/
theorem typed_expansion (hs : s.Consistent) (type : GraphType) (defaultScalars : Bool) :
    Selection.AllTyped s type.typeRef (s.expansion type defaultScalars) := by
  intro node hnode
  rcases mem_expansion hnode with
    hleaf | rfl | ⟨object, hobject, rfl⟩ | ⟨interface, hinterface, rfl⟩
  · exact typed_leafFields hs type.typeRef node hleaf
  · exact .node trivial (fun _ => rfl) nofun
  · exact typed_subtypeNode hs (hs.possibleTypes hobject) rfl
  · rcases mem_sharedInterfaces hinterface with ⟨object, -, hmem⟩
    exact typed_subtypeNode hs (hs.interfaces hmem) rfl

end Schema

/-! ## Typed trees -/

/-- What a tree that is compiled in a scope can be selected from. The definition of a fragment
stands wherever the fragment is applied. -/
inductive Scope.Offers (s : Schema) : Scope → Start → TypeRef → Prop where
  | query {scope : Scope} : Offers s scope .query s.queryType
  | element {scope : Scope} {owner : TypeRef} :
      scope.current = .element owner → Offers s scope .element owner
  | fragment {scope : Scope} {owner : TypeRef} {name : String} {type : GraphType} :
      scope.current = .fragment name type → s.Declares type → type.isComposite = true →
      Offers s scope .element owner

theorem Scope.Offers.congr {s : Schema} {scope inner : Scope} {start : Start} {owner : TypeRef}
    (h : scope.Offers s start owner) (hcurrent : inner.current = scope.current) :
    inner.Offers s start owner := by
  cases h with
  | query => exact .query
  | element h => exact .element (hcurrent.trans h)
  | fragment h hd hc => exact .fragment (hcurrent.trans h) hd hc

namespace Compiler

open Expression (StartsAt)

variable {c : Compiler} {e : Expression} {scope : Scope} {f : Focused}

theorem declares_of_resolveType {domainType : String} {type : GraphType}
    (h : c.resolveType domainType = .ok type) : c.schema.Declares type :=
  Schema.declares_of_graphType? (resolveType_eq_ok h)

theorem placed_fieldNode (hs : c.schema.Consistent) {owner : TypeRef} {fields : List Field}
    {field : Field} {node : Selection} (hfields : c.schema.fields? owner = some fields)
    (hfield : field ∈ fields) (h : c.fieldNode field scope = .ok node) :
    (Focused.ofRoot node).Placed c.schema owner := by
  rcases fieldNode_eq_ok h with ⟨source, hsource, -, rfl⟩
  refine .ofRoot ?_ (hs.fieldTypes hfields field hfield) rfl
  refine .node ⟨hs.field?_of_mem hfields hfield, hsource⟩ ?_ ?_
  · intro hclosed
    rw [if_neg]
    simpa [Label.opens] using hclosed
  · intro child hchild
    split at hchild
    · exact Schema.typed_expansion hs field.type scope.defaultScalars child hchild
    · cases hchild

/-- A cast narrows a composite type to one. -/
theorem isComposite_of_castable {parent target : GraphType} (hd : c.schema.Declares target)
    (h : c.castable parent target = true) :
    parent.isComposite = true ∧ target.isComposite = true := by
  unfold castable at h
  rw [Bool.and_eq_true, Bool.or_eq_true] at h
  refine ⟨Schema.isComposite_of_isAbstract h.1, ?_⟩
  rcases h.2 with h | h
  · exact Schema.isComposite_of_isAbstract h
  · exact Schema.isComposite_of_candidate hd h

/-- A fragment is applied to composite types only. -/
theorem isComposite_of_applicable {head type : GraphType} (hd : c.schema.Declares head)
    (hdtype : c.schema.Declares type) (hc : type.isComposite = true)
    (h : c.applicable head.typeRef type.typeRef = true) : head.isComposite = true := by
  unfold applicable at h
  rw [Bool.or_eq_true, Bool.or_eq_true, beq_iff_eq] at h
  rcases h with (h | h) | h
  · -- One reference leads to one definition, so both types are of its kind.
    rcases Schema.definition_of_declares hd with ⟨definition, hdefinition, hkind⟩
    rcases Schema.definition_of_declares hdtype with ⟨other, hother, hotherKind⟩
    have hsame : some definition = some other := by rw [← hdefinition, ← hother, h]
    cases hsame
    have hkinds : head.kind = type.kind := hkind.symm.trans hotherKind
    simpa [GraphType.isComposite, hkinds] using hc
  · exact Schema.isComposite_of_isPossibleType hd h
  · exact Schema.isComposite_of_candidate hd h

/-- Where an expression starts at an element, there is one, and it has fields or is that of a
fragment. -/
theorem Derives.hasElement (h : c.Derives e scope f) (hstart : e.StartsAt .element) :
    (∃ owner fields, scope.current = .element owner ∧ c.schema.fields? owner = some fields) ∨
      ∃ name type, scope.current = .fragment name type := by
  induction h with
  | root => cases hstart
  | fragment hcurrent => exact .inr ⟨_, _, hcurrent⟩
  | elementMember hcurrent hmember _ =>
      rcases resolveMember_eq_ok hmember with ⟨fields, hfields, -⟩
      exact .inl ⟨_, fields, hcurrent, hfields⟩
  | member _ _ _ ih => cases hstart with | member h => exact ih h
  | project _ _ ih _ => cases hstart with | project h _ => exact ih h
  | projectMany _ _ ih _ => cases hstart with | projectMany h _ => exact ih h
  | filter _ ih => cases hstart with | filter h => exact ih h
  | including _ _ _ _ ih _ => cases hstart with | including h _ => exact ih h
  | cast _ _ _ ih => cases hstart with | cast h => exact ih h
  | withFragment _ _ _ _ _ _ _ _ ih _ => cases hstart with | withFragment h _ => exact ih h

/-- The head of a source can be selected from when a selector on it compiles. -/
theorem opens_of_selector {source selected : Focused} {selector : Expression} {owner : TypeRef}
    (hsource : source.Placed c.schema owner) (hcurrent : scope.current = .element source.owner)
    (hselected : c.Derives selector scope selected) (hstart : selector.StartsAt .element) :
    source.head.label.opens = true := by
  rcases hselected.hasElement hstart with ⟨_, fields, hfound, hfields⟩ | ⟨name, type, hfound⟩
  · rw [hcurrent] at hfound
    cases hfound
    exact hsource.opens.trans (Schema.isComposite_of_fields? hsource.declared hfields)
  · rw [hcurrent] at hfound
    cases hfound

/-- The tree of an expression can be selected from every type that its scope offers at the place
where it starts. -/
theorem Derives.placed (hs : c.schema.Consistent) (h : c.Derives e scope f) {start : Start}
    {owner : TypeRef} (hstart : e.StartsAt start) (hoffers : scope.Offers c.schema start owner) :
    f.Placed c.schema owner := by
  -- Rule by rule: the source is placed where the chain starts, what is put below its head is
  -- placed at the type of the head, and so the head has to open.
  induction h generalizing start owner with
  | root _ hfield hnode =>
      rcases entryField_eq_ok hfield with ⟨fields, hfields, hmem⟩
      cases hstart
      cases hoffers
      exact placed_fieldNode hs hfields hmem hnode
  | fragment hcurrent =>
      -- The current element is that of a fragment, which the scope offers everywhere.
      cases hstart
      cases hoffers with
      | element hfound =>
          rw [hcurrent] at hfound
          cases hfound
      | fragment hfound hd hc =>
          rw [hcurrent] at hfound
          cases hfound
          refine .ofRoot (.of_children ⟨hd, hc⟩ (fun _ _ => hc) ?_) hd rfl
          exact Schema.typed_expansion hs _ _
  | elementMember hcurrent hmember hnode =>
      rcases resolveMember_eq_ok hmember with ⟨fields, hfields, hmem⟩
      obtain _ | _ | htarget := hstart
      cases htarget
      cases hoffers with
      | element hfound =>
          rw [hcurrent] at hfound
          cases hfound
          exact placed_fieldNode hs hfields hmem hnode
      | fragment hfound =>
          rw [hcurrent] at hfound
          cases hfound
  | member _ hmember hnode ih =>
      rcases resolveMember_eq_ok hmember with ⟨fields, hfields, hmem⟩
      cases hstart with
      | member htarget =>
          have hsource := ih htarget (hoffers.congr rfl)
          -- The head has a type with fields, so it can be selected from.
          have hopens := Schema.isComposite_of_fields? hsource.declared hfields
          exact hsource.move (hsource.opens.trans hopens) (placed_fieldNode hs hfields hmem hnode)
  | project _ hselected ihSource ihSelector =>
      cases hstart with
      | project he hselector =>
          have hsource := ihSource he (hoffers.congr rfl)
          exact hsource.move (opens_of_selector hsource rfl hselected hselector)
            (ihSelector hselector (.element rfl))
  | projectMany _ hselected ihSource ihSelector =>
      cases hstart with
      | projectMany he hselector =>
          have hsource := ihSource he (hoffers.congr rfl)
          exact hsource.move (opens_of_selector hsource rfl hselected hselector)
            (ihSelector hselector (.element rfl))
  | filter _ ih =>
      cases hstart with
      | filter he => exact ih he (hoffers.congr rfl)
  | including _ hcurrent _ hselected ihSource ihSelector =>
      cases hstart with
      | including he hselector =>
          have hsource := ihSource he (hoffers.congr rfl)
          exact hsource.stay (opens_of_selector hsource hcurrent hselected hselector)
            (ihSelector hselector (.element hcurrent)).typed
  | cast _ htype hcastable ih =>
      cases hstart with
      | cast he =>
          have hsource := ih he (hoffers.congr rfl)
          have hd := declares_of_resolveType htype
          rcases isComposite_of_castable hd hcastable with ⟨hparent, htarget⟩
          -- The cast looks at the type of the head without its wrappers.
          rw [Schema.terminal_eq] at hparent
          refine hsource.move (hsource.opens.trans hparent) (.ofRoot ?_ hd rfl)
          exact .of_children ⟨hd, htarget⟩ (fun _ _ => htarget) (Schema.typed_expansion hs _ _)
  | withFragment _ htype hc happlicable hcurrent _ _ hlabel ihSource ihSelection =>
      cases hstart with
      | withFragment he hselection =>
          have hsource := ihSource he (hoffers.congr rfl)
          have hd := declares_of_resolveType htype
          have hopens := isComposite_of_applicable hsource.declared hd hc happlicable
          exact hsource.stay (hsource.opens.trans hopens)
            (ihSelection hselection (.fragment hcurrent hd hc)).typed

/-- No element is bound where a query starts. -/
theorem Derives.startsAt_query (h : c.Derives e scope f) (he : e.WellScoped)
    (hunbound : scope.current = .unbound) : e.StartsAt .query := by
  rcases he with ⟨start, hstart⟩
  cases start with
  | query => exact hstart
  | element =>
      rcases h.hasElement hstart with ⟨_, _, hcurrent, -⟩ | ⟨_, _, hcurrent⟩ <;>
        simp [hunbound] at hcurrent

/-- The tree of a well-scoped query can be selected from the query type. -/
theorem typed_of_tree (hs : c.schema.Consistent) {tree : Selection} (he : e.WellScoped)
    (h : c.tree e = .ok tree) : Selection.Typed c.schema c.schema.queryType tree := by
  rcases Outcome.bind_eq_ok_iff.1 h with ⟨selected, hselected, h⟩
  cases h
  have hderives := derives_of_select hselected
  exact (hderives.placed hs (hderives.startsAt_query he rfl) .query).typed

/-- Where an expression starts at a root, its tree is that of the query field. -/
theorem Derives.rootField (h : c.Derives e scope f) (hstart : e.StartsAt .query) :
    ∃ name type arguments source, f.root.label = .field name type arguments source := by
  induction h with
  | root _ _ hnode =>
      rcases fieldNode_eq_ok hnode with ⟨source, -, -, rfl⟩
      exact ⟨_, _, _, _, rfl⟩
  | fragment => cases hstart
  | elementMember => cases hstart with | member h => cases h
  | member _ _ _ ih =>
      cases hstart with
      | member h => simpa [Focused.label_attach] using ih h
  | project _ _ ih _ =>
      cases hstart with
      | project h _ => simpa [Focused.label_attach] using ih h
  | projectMany _ _ ih _ =>
      cases hstart with
      | projectMany h _ => simpa [Focused.label_attach] using ih h
  | filter _ ih =>
      cases hstart with
      | filter h => exact ih h
  | including _ _ _ _ ih _ =>
      cases hstart with
      | including h _ => simpa [Focused.label_attach] using ih h
  | cast _ _ _ ih =>
      cases hstart with
      | cast h => simpa [Focused.label_attach] using ih h
  | withFragment _ _ _ _ _ _ _ _ ih _ =>
      cases hstart with
      | withFragment h _ => simpa [Focused.label_attach] using ih h

theorem rootField_of_tree {tree : Selection} (he : e.WellScoped) (h : c.tree e = .ok tree) :
    ∃ name type arguments source, tree.label = .field name type arguments source := by
  rcases Outcome.bind_eq_ok_iff.1 h with ⟨selected, hselected, h⟩
  cases h
  have hderives := derives_of_select hselected
  exact hderives.rootField (hderives.startsAt_query he rfl)

end Compiler

end GraphQuery
