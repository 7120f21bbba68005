import SourceBlocks.Language.Basic

/-! # Node kinds by language

Which node kinds count as declarations when no query finds any, what a kind is called as a block
type, and the field under which a declaration's name hangs. -/

namespace SourceBlocks

namespace Language

/-- Kinds of the nodes that the structural walk collects. -/
def structuralKinds : Language → List String
  | rust => ["function_item", "impl_item", "struct_item", "enum_item", "trait_item"]
  | python => ["function_definition", "class_definition"]
  | javascript =>
    ["function_declaration", "method_definition", "class_declaration", "arrow_function"]
  | typescript =>
    ["function_declaration", "arrow_function", "method_definition", "method_signature",
      "class_declaration", "abstract_class_declaration", "interface_declaration",
      "function_signature", "type_alias_declaration"]
  | tsx =>
    ["function_declaration", "method_definition", "class_declaration",
      "abstract_class_declaration", "interface_declaration", "type_alias_declaration"]
  | go => ["function_declaration", "method_declaration", "type_declaration"]
  | java => ["class_declaration", "method_declaration", "interface_declaration"]
  | cpp => ["function_definition", "class_specifier", "struct_specifier"]
  | c => ["function_definition"]
  | csharp => ["class_declaration", "method_declaration", "interface_declaration"]
  | ruby => ["method", "class", "module"]
  | php => ["function_definition", "class_declaration"]
  | kotlin => ["class_declaration", "function_declaration"]
  | lua => ["function_declaration"]
  | bash => ["function_definition"]
  | json => ["pair"]
  | yaml => ["block_mapping_pair"]
  | markdown => ["atx_heading", "setext_heading"]
  | html => ["element"]
  | css => ["rule_set"]
  | toml => ["table", "table_array_element"]

def nameField : Language → String
  | c | cpp => "declarator"
  | json | yaml | toml => "key"
  | _ => "name"

end Language

/-- Kinds collected for a key without a grammar. -/
def genericKinds : List String :=
  ["function_definition", "class_definition"]

def structuralKindsOf (key : String) : List String :=
  match Language.ofKey? key with
  | some l => l.structuralKinds
  | none => genericKinds

def nameFieldOf (key : String) : String :=
  match Language.ofKey? key with
  | some l => l.nameField
  | none => "name"

/-- Block types whose node kinds differ from them. -/
def blockTypeTable : List (String × String) :=
  [("function_definition", "function"), ("function_declaration", "function"),
    ("function_item", "function"), ("arrow_function", "function"),
    ("function_expression", "function"), ("function_signature", "function"),
    ("method_definition", "method"), ("method_declaration", "method"),
    ("method_signature", "method"), ("singleton_method", "method"),
    ("class_definition", "class"), ("class_declaration", "class"),
    ("abstract_class_declaration", "class"), ("class_specifier", "class"),
    ("struct_item", "struct"), ("struct_specifier", "struct"),
    ("enum_item", "enum"), ("enum_declaration", "enum"),
    ("trait_item", "trait"), ("impl_item", "impl"), ("interface_declaration", "interface"),
    ("type_alias_declaration", "type"), ("type_declaration", "type"),
    ("atx_heading", "heading"), ("setext_heading", "heading"),
    ("rule_set", "rule"), ("block_mapping_pair", "pair"), ("table_array_element", "table")]

/-- The block type of a node kind; a kind outside the table is its own block type. -/
def blockTypeOfKind (kind : String) : String :=
  (blockTypeTable.lookup kind).getD kind

end SourceBlocks
