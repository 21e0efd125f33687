import DeclSchema.Name
import DeclSchema.Text.Place

/-!
# Faults

Why a run ends early. The faults that concern the declarations, the options or the files of a run
have a message; the others break it off without one.

## Main definitions

* `Fault`: the causes
* `Fault.message?`: the message of a fault that has one

## Main results

* `exists_of_bind_eq_ok`: where no fault breaks a sequence off, none breaks its first part off
-/

namespace DeclSchema

/-- Why an operation on files fails. -/
inductive StorageFault where
  | notFound
  | occupied
  | notDirectory
  | isDirectory
  | nameTooLong
  | busy
deriving DecidableEq

/-- Why a run ends early. -/
inductive Fault where
  | invalidSource (line column : Nat) (excerpt : Text)
  | unsupportedLiteral (kind text : Text)
  /-- A qualified name is outside the namespaces of kind constants. -/
  | foreignMember (text : Text)
  /-- The form that collects values has not exactly one argument. -/
  | valueOfArity (name : Text)
  /-- The form that collects values is applied to an undeclared name. -/
  | valueOfUnknown (name argument : Text)
  /-- The form that collects values is applied to something else than an interface. -/
  | valueOfNoInterface (name argument : Text)
  /-- A member of an object shape is no property. -/
  | unexpectedMember (scope member : Text)
  | untypedMember (scope member : Text)
  /-- A property has a bracketed key that is no kind constant. -/
  | computedKey (scope key : Text)
  /-- A declaration is of a sort that has no definition. -/
  | unexpectedDeclaration (sort : Text) (name : Name)
  | emptyUnion (scope union : Text)
  | tooDeep (scope limit : Text)
  | missingRoot (root : Name)
  /-- The policy for empty unions is none of the three. -/
  | unknownPolicy (value : Text)
  | unreadableSource (location problem : Text)
  | unreachableSource (location problem : Text)
  /-- The document to be written is no JSON text. -/
  | invalidDocument (problem : Text)
  /-- The document to be written is no object with a schema key. -/
  | noSchemaKey
  /-- An option has a value of a sort that cannot be used. -/
  | mistypedOption
  | rootNoObject
  /-- A count has more than 64 bits. -/
  | oversizedOption
  /-- A count of blanks is beyond memory. -/
  | vastOption
  | unsetOption
  /-- A part of the options that cannot be set is given. -/
  | fixedOption
  /-- A part of a node that is needed is absent. -/
  | absentNode
  /-- Options are given as something else than an object. -/
  | optionsNoObject
  /-- An escape spells a number that is no code point. -/
  | noCodePoint
  /-- An escape spells a number beyond thirty-one bits. -/
  | hugeCodePoint
  /-- An integer in a JSON text is too long. -/
  | longInteger
  /-- A location has unbalanced brackets, or a path has a null character. -/
  | malformedLocation
  | malformedOptions
  | undecodable
  | unencodable
  | storage (cause : StorageFault)

namespace Fault

def sentence (parts : List Text) : Text :=
  parts.flatten

/-- The message of a fault, if it has one. -/
def message? : Fault → Option Text
  | invalidSource line column excerpt =>
    some (sentence [.ofString "invalid declaration source at line ", .ofNat line,
      .ofString ", column ", .ofNat column, .ofString ":\n", excerpt])
  | unsupportedLiteral kind text =>
    some (sentence [.ofString "unexpected literal type: ", kind, .ofString " (", text,
      .ofString ")"])
  | foreignMember text => some (sentence [.ofString "unexpected type ", text])
  | valueOfArity name => some (sentence [name, .ofString " missing or too many type arguments"])
  | valueOfUnknown name argument =>
    some (sentence [.ofString "unknown type ", name, .ofString "<", argument, .ofString ">"])
  | valueOfNoInterface name argument =>
    some (sentence [.ofString "unexpected type ", name, .ofString "<", argument, .ofString ">"])
  | unexpectedMember scope member =>
    some (sentence [scope, .ofString ": unexpected member type \x60", member, .ofString "\x60"])
  | untypedMember scope member =>
    some (sentence [scope, .ofString ": no type for \x60", member, .ofString "\x60"])
  | computedKey scope key =>
    some (sentence [scope, .ofString ": unexpected computed property name ", key])
  | unexpectedDeclaration sort name =>
    some (sentence [.ofString "unexpected declaration type ", sort, .ofString " for ", name.shown])
  | emptyUnion scope union =>
    some (sentence [scope, .ofString ": every member of \x60", union,
      .ofString "\x60 is excluded"])
  | tooDeep scope limit =>
    some (sentence [scope, .ofString ": type nesting exceeds ", limit, .ofString " levels"])
  | missingRoot root =>
    some (sentence [.ofString "no definition for root declaration ", root.shown])
  | unknownPolicy value =>
    some (sentence [.ofString "unknown empty_union policy ", value,
      .ofString ", expected one of 'error', 'any', 'empty'"])
  | unreadableSource location problem =>
    some (sentence [.ofString "cannot read ", location, .ofString ": ", problem])
  | unreachableSource location problem =>
    some (sentence [.ofString "cannot fetch ", location, .ofString ": ", problem])
  | invalidDocument problem =>
    some (sentence [.ofString "Generated schema is not valid JSON: ", problem])
  | noSchemaKey => some (.ofString "Generated schema is missing the $schema key")
  | _ => none

end Fault

/-- A sequence of two computations that succeeds does so by a first success. -/
theorem exists_of_bind_eq_ok {ε α β : Type} {x : Except ε α} {f : α → Except ε β} {b : β}
    (h : x >>= f = .ok b) : ∃ a, x = .ok a ∧ f a = .ok b := by
  cases x with
  | error e => cases h
  | ok a => exact ⟨a, rfl, h⟩

end DeclSchema
