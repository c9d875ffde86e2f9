import GraphQuery.Configuration
import GraphQuery.Yaml.Settings

/-!
# Configuration.Reader — options from YAML

- `Yaml.Scalar.natural?`, `Yaml.Scalar.boolean?` : scalars that are numbers and truth values
- `Configuration.ofYaml?` : the options a text gives, the standard ones for all others
-/

set_option autoImplicit false

namespace GraphQuery

namespace Yaml

/-! ## Scalars -/

/-- Whether a scalar can be something else than a text: it is written without quotes, or is a
literal block with the tag that says so. -/
def Scalar.mayBe (content : Scalar) (tag : String) : Bool :=
  content.style == .plain || (content.style == .literal && content.tag == some tag)

/-- A decimal number starts with no zero, unless it is zero. -/
def decimal? : List Char → Option Nat
  | '0' :: _ :: _ => none
  | digits => number? 10 digits

/-- A number in the base that its first characters give, or else a decimal one. -/
def unsigned? : List Char → Option Nat
  | '0' :: 'x' :: digits => number? 16 digits
  | '0' :: 'o' :: digits => number? 8 digits
  | '0' :: 'b' :: digits => number? 2 digits
  | digits => decimal? digits

/-- Natural numbers of 64 bits, possibly behind a plus sign. -/
def Scalar.natural? (content : Scalar) : Option Nat := do
  if !content.mayBe "tag:yaml.org,2002:int" then none
  let n ← match content.text.toList with
    | '+' :: rest => unsigned? rest
    | cs => unsigned? cs
  if n < Nat.pow 2 64 then return n else none

def Scalar.boolean? (content : Scalar) : Option Bool :=
  if !content.mayBe "tag:yaml.org,2002:bool" then none
  else if content.text ∈ ["true", "True", "TRUE"] then some true
  else if content.text ∈ ["false", "False", "FALSE"] then some false
  else none

end Yaml

namespace Configuration

/-! ## Options -/

/-- The option that a key names gets the value given for it. -/
def set? (configuration : Configuration) (key : String) (value : Yaml.Scalar) :
    Option Configuration := do
  match key with
  | "variable_prefix" => return { configuration with variablePrefix := value.text }
  | "identity_scalar" => return { configuration with identityScalar := value.text }
  | "recursion_limit" => return { configuration with recursionLimit := ← value.natural? }
  | "default_scalars" => return { configuration with defaultScalars := ← value.boolean? }
  | _ => none

/-- The options that entries give. No key may occur twice. -/
def ofEntries? (entries : List (Yaml.Scalar × Yaml.Scalar)) : Option Configuration :=
  if (entries.map fun entry => entry.1.text).Nodup then
    entries.foldlM (fun configuration entry => configuration.set? entry.1.text entry.2) standard
  else none

/-- The options that a text gives. A text without content gives none. -/
def ofYaml? (text : String) : Option Configuration := do
  match ← Yaml.content? text with
  | .mapping entries => ofEntries? entries
  | .scalar content =>
      if content.style = .plain ∧ content.text = "" then return standard else none

end Configuration

end GraphQuery
