import DeclSchema.Proofs.Declaration.Mention
import DeclSchema.Proofs.Schema.Cases
import DeclSchema.Proofs.Table.Lookup

/-!
# Schemas depend on what is mentioned

The schema of a type is the same, with the same events and the same fault, in two contexts whose
tables agree on the names that the type mentions. Not all options matter either: the names to start
from and the indentation are among those that the schema of a type does not read.

## Main definitions

* `Options.besides`: options with another value of what schemas do not read

## Main results

* `Schema.cases_moved`: the schema of a type in two tables that agree
* `Schema.ofDeclaration_eq`: the definition of a name in two tables that agree
-/

namespace DeclSchema

namespace Options

/-- The options with other names to start from and another indentation. -/
def besides (names indent : Option Json) (o : Options) : Options :=
  { o with own? := fun
    | .rootNames => names
    | .indent => indent
    | key => o.own? key }

theorem set_rootNames_eq (v : Json) (o : Options) :
    o.set .rootNames v = o.besides (some v) (o.own? .indent) := by
  rw [set, besides]
  congr 1
  funext key
  cases key <;> rfl

theorem set_indent_eq (v : Json) (o : Options) :
    o.set .indent v = o.besides (o.own? .rootNames) (some v) := by
  rw [set, besides]
  congr 1
  funext key
  cases key <;> rfl

end Options

namespace Schema

variable {s : Set Text} {t t' : Table} (o : Options) (names indent : Option Json) (scope : Text)

/-- The context with the other table, and with other options that no schema reads. -/
abbrev Context.moved (t' : Table) (o : Options) (names indent : Option Json) (scope : Text) :
    Context :=
  ⟨t', o.besides names indent, scope⟩

theorem ofCollection_eq (h : t.AgreesOn s t') (name : Text) {arguments : List TypeExpr}
    (hs : ∀ n ∈ arguments.map (·.text), n ∈ s) :
    ofCollection (.moved t' o names indent scope) name arguments =
      ofCollection ⟨t, o, scope⟩ name arguments := by
  unfold ofCollection
  split
  · next argument =>
    -- The table is read twice: whether there is an interface, and for its values.
    have hn : argument.text ∈ s := hs _ (List.mem_singleton.2 rfl)
    simp only [h.get?_eq _ hn, h.valuesOf_eq hn]
  · rfl

theorem ofReference_eq (h : t.AgreesOn s t') {text name : Text} {arguments : List TypeExpr}
    (hs : Mention.Within o s (TypeExpr.reference text name arguments).mentions) :
    ofReference (.moved t' o names indent scope) name arguments =
      ofReference ⟨t, o, scope⟩ name arguments := by
  rw [TypeExpr.mentions] at hs
  have hvalue : (o.besides names indent).isValueOf name = o.isValueOf name := rfl
  rw [ofReference, ofReference, hvalue]
  split
  · next hv =>
    -- Only the collecting form looks something up, and then its arguments are mentioned as names.
    refine ofCollection_eq o names indent scope h name fun n hn => ?_
    refine hs _ List.mem_cons_self n (List.mem_cons_of_mem _ ?_)
    rw [if_pos hv]
    exact hn
  · rfl

/-- Of the leaves, only a reference may look something up. -/
theorem Leaf.eq_moved (h : t.AgreesOn s t') {type : TypeExpr} {x : Context → Traced Event Schema}
    (hx : Leaf type x) (hs : Mention.Within o s type.mentions) :
    x (.moved t' o names indent scope) = x ⟨t, o, scope⟩ := by
  cases hx with
  | reference text name arguments => exact ofReference_eq o names indent scope h hs
  | _ => rfl

-- A part mentions no more than the whole, and is made into a schema in the same way.

theorem cases_moved (h : t.AgreesOn s t') : Cases
    (fun type => ∀ depth, Mention.Within o s type.mentions →
      ofType (.moved t' o names indent scope) depth type = ofType ⟨t, o, scope⟩ depth type)
    (fun type? => ∀ depth, Mention.Within o s (mentionsOfOptional type?) →
      ofOptional (.moved t' o names indent scope) depth type? = ofOptional ⟨t, o, scope⟩ depth type?)
    (fun types => ∀ depth excluded, Mention.Within o s (mentionsOfTypes types) →
      ofUnionMembers (.moved t' o names indent scope) depth excluded types =
        ofUnionMembers ⟨t, o, scope⟩ depth excluded types)
    (fun members => ∀ depth, Mention.Within o s (mentionsOfMembers members) →
      ofMembers (.moved t' o names indent scope) depth members =
        ofMembers ⟨t, o, scope⟩ depth members) where
  leaf hx depth hs := by
    rw [hx.ofType_eq, hx.ofType_eq, hx.eq_moved o names indent scope h hs]
    rfl
  array ih depth hs := by
    rw [TypeExpr.mentions] at hs
    rw [ofType, ofType, ih (depth + 1) hs]
    rfl
  union ih depth hs := by
    rw [TypeExpr.mentions] at hs
    rw [ofType, ofType]
    simp only [ih (depth + 1) _ hs]
    rfl
  object ih depth hs := by
    rw [TypeExpr.mentions] at hs
    rw [ofType, ofType, ih (depth + 1) hs]
    rfl
  parenthesized ih depth hs := by
    rw [TypeExpr.mentions] at hs
    rw [ofType, ofType, ih (depth + 1) hs]
    rfl
  interface ih depth hs := by
    -- What the bases mention does not matter, since a base is only referred to by its name.
    rw [TypeExpr.mentions, Declaration.mentions] at hs
    rw [ofType, ofType, ih (depth + 1) hs.right]
    rfl
  present ih depth hs := by
    rw [mentionsOfOptional] at hs
    rw [ofOptional, ofOptional, ih depth hs]
  absent depth _ := by
    rw [ofOptional, ofOptional]
    rfl
  noMember depth excluded _ := by
    rw [ofUnionMembers, ofUnionMembers]
  alternative ih ihrest depth excluded hs := by
    rw [mentionsOfTypes] at hs
    rw [ofUnionMembers, ofUnionMembers, ih depth hs.left, ihrest depth excluded hs.right]
  noProperty depth _ := by
    rw [ofMembers, ofMembers]
  property ih ihrest depth hs := by
    rw [mentionsOfMembers, Member.mentions, mentionsOfOptional] at hs
    rw [ofMembers, ofMembers, ih depth hs.left, ihrest depth hs.right]
    rfl
  refused hrefused _ depth _ := by
    rw [ofMembers_refused hrefused, ofMembers_refused hrefused]

/-- The definition of a name in two tables that agree on what its declaration mentions. -/
theorem ofDeclaration_eq (h : t.AgreesOn s t') {declared : Declaration}
    (hs : Mention.Within o s declared.mentions) :
    ofDeclaration (.moved t' o names indent scope) declared
      = ofDeclaration ⟨t, o, scope⟩ declared := by
  cases declared with
  | interface name text typeParameters heritage members =>
    refine (cases_moved o names indent scope h).type _ 0 ?_
    rwa [TypeExpr.mentions]
  | typeAlias name text typeParameters type =>
    rw [Declaration.mentions] at hs
    exact (cases_moved o names indent scope h).part type 0 hs
  | enumeration name text members => rfl
  | bare name text => rfl

end Schema

end DeclSchema
