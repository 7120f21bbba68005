import SourceBlocks.Language.Basic
import SourceBlocks.Query.Pattern

/-! # Catalogue of queries

Every language has a primary query, which finds its declarations and their names. Most have a
fallback query, which asks for node kinds only and so still matches when a grammar renames a field.
The outer capture of a pattern is the block type; `name` marks the identifier. -/

namespace SourceBlocks

namespace Catalogue

/-- A node of a kind, captured as a block type. -/
def block (kind type : String) : Pattern :=
  .mk none (.oneOf [kind]) [] (some type)

def nameChild (field : String) (test : KindTest) : Pattern :=
  .mk (some field) test [] (some "name")

/-- A declaration with its identifier of a kind under the field `name`. -/
def named (kind nameKind type : String) : Pattern :=
  .mk none (.oneOf [kind]) [nameChild "name" (.oneOf [nameKind])] (some type)

def structWithBody : Pattern :=
  .mk none (.oneOf ["struct_specifier"])
    [nameChild "name" (.oneOf ["type_identifier"]), .mk (some "body") .anyNode [] none]
    (some "struct")

def functionVariable : Pattern :=
  .mk none (.oneOf ["lexical_declaration"])
    [.mk none (.oneOf ["variable_declarator"])
      [nameChild "name" (.oneOf ["identifier"]),
        .mk (some "value") (.oneOf ["arrow_function", "function_expression"]) [] none]
      none]
    (some "function")

def typescriptQuery : Query where
  layout := .block
  patterns :=
    [named "function_declaration" "identifier" "function",
      named "method_definition" "property_identifier" "method",
      named "class_declaration" "type_identifier" "class",
      named "abstract_class_declaration" "type_identifier" "class",
      named "interface_declaration" "type_identifier" "interface",
      named "type_alias_declaration" "type_identifier" "type",
      functionVariable]

/-- Queries of the languages whose declarations are classes with methods. -/
def classQuery : Query where
  layout := .block
  patterns :=
    [named "class_declaration" "identifier" "class",
      named "interface_declaration" "identifier" "interface",
      named "method_declaration" "identifier" "method",
      named "constructor_declaration" "identifier" "constructor"]

/-- The query tried first. -/
def primary : Language → Query
  | .python =>
    ⟨.block,
      [named "function_definition" "identifier" "function",
        named "class_definition" "identifier" "class"]⟩
  | .rust =>
    ⟨.block,
      [named "function_item" "identifier" "function",
        named "struct_item" "type_identifier" "struct",
        named "enum_item" "type_identifier" "enum",
        named "trait_item" "type_identifier" "trait",
        .mk none (.oneOf ["impl_item"]) [nameChild "type" .anyNode] (some "impl"),
        named "mod_item" "identifier" "module"]⟩
  | .javascript =>
    ⟨.block,
      [named "function_declaration" "identifier" "function",
        named "method_definition" "property_identifier" "method",
        named "class_declaration" "identifier" "class",
        functionVariable]⟩
  | .typescript => typescriptQuery
  | .tsx => typescriptQuery
  | .go =>
    ⟨.block,
      [named "function_declaration" "identifier" "function",
        named "method_declaration" "field_identifier" "method",
        .mk none (.oneOf ["type_declaration"])
          [.mk none (.oneOf ["type_spec"]) [nameChild "name" (.oneOf ["type_identifier"])] none]
          (some "type")]⟩
  | .java => classQuery
  | .c => ⟨.block, [block "function_definition" "function", structWithBody]⟩
  | .cpp =>
    ⟨.block,
      [block "function_definition" "function",
        named "class_specifier" "type_identifier" "class",
        structWithBody]⟩
  | .csharp => classQuery
  | .ruby =>
    ⟨.block,
      [named "class" "constant" "class",
        named "module" "constant" "module",
        named "method" "identifier" "method",
        named "singleton_method" "identifier" "method"]⟩
  | .php =>
    ⟨.block,
      [named "class_declaration" "name" "class",
        named "function_definition" "name" "function",
        named "method_declaration" "name" "method"]⟩
  | .kotlin =>
    ⟨.block, [block "class_declaration" "class", block "function_declaration" "function"]⟩
  | .lua => ⟨.line, [block "function_declaration" "function"]⟩
  | .bash => ⟨.line, [named "function_definition" "word" "function"]⟩
  | .markdown =>
    ⟨.block,
      [block "atx_heading" "heading", block "setext_heading" "heading",
        block "fenced_code_block" "code_block"]⟩
  | .json =>
    ⟨.line,
      [.mk none (.oneOf ["document"])
        [.mk none (.oneOf ["object"])
          [.mk none (.oneOf ["pair"]) [nameChild "key" .anyNode] (some "pair")]
          none]
        none]⟩
  | .yaml =>
    ⟨.line,
      [.mk none (.oneOf ["block_mapping_pair"]) [nameChild "key" .anyNode] (some "pair")]⟩
  | .toml => ⟨.block, [block "table" "table", block "table_array_element" "table"]⟩
  | .html => ⟨.block, [block "script_element" "script", block "style_element" "style"]⟩
  | .css =>
    ⟨.block,
      [block "rule_set" "rule", block "media_statement" "media",
        block "keyframes_statement" "keyframes"]⟩

/-- Node kinds and block types of the query tried second. -/
def fallbackKinds : Language → List (String × String)
  | .python => [("function_definition", "function"), ("class_definition", "class")]
  | .rust =>
    [("function_item", "function"), ("struct_item", "struct"), ("enum_item", "enum"),
      ("trait_item", "trait"), ("impl_item", "impl")]
  | .javascript =>
    [("function_declaration", "function"), ("method_definition", "method"),
      ("class_declaration", "class")]
  | .typescript | .tsx =>
    [("function_declaration", "function"), ("method_definition", "method"),
      ("class_declaration", "class"), ("abstract_class_declaration", "class"),
      ("interface_declaration", "interface")]
  | .go => [("function_declaration", "function"), ("method_declaration", "method")]
  | .java | .csharp => [("class_declaration", "class"), ("method_declaration", "method")]
  | .c => [("function_definition", "function")]
  | .cpp => [("function_definition", "function"), ("class_specifier", "class")]
  | .ruby => [("class", "class"), ("method", "method")]
  | .php => [("class_declaration", "class"), ("function_definition", "function")]
  | .kotlin => [("class_declaration", "class")]
  | .bash => [("function_definition", "function")]
  | .markdown => [("atx_heading", "heading")]
  | .html => [("element", "element")]
  | .css => [("rule_set", "rule")]
  | .lua | .json | .yaml | .toml => []

/-- The query tried second, where a language has one. -/
def fallback? (l : Language) : Option Query :=
  match fallbackKinds l with
  | [] => none
  | kinds => some ⟨.line, kinds.map fun (kind, type) => block kind type⟩

def primaryOf? (key : String) : Option Query :=
  (Language.ofKey? key).map primary

def fallbackOf? (key : String) : Option Query :=
  (Language.ofKey? key).bind fallback?

/-- A key has structural support when it has a grammar and a primary query. -/
def hasStructuralSupport (key : String) : Bool :=
  Language.hasGrammar key && (primaryOf? key).isSome

theorem hasStructuralSupport_eq (key : String) :
    hasStructuralSupport key = Language.hasGrammar key := by
  simp only [hasStructuralSupport, primaryOf?, Language.hasGrammar]
  cases Language.ofKey? key <;> rfl

end Catalogue

end SourceBlocks
