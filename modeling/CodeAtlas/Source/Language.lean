import CodeAtlas.Source.Pattern

/-!
What has to be known of a programming language to cut its files into chunks: which kinds of nodes
are imports, containers and members, where names stand, and the patterns for imports, packages, base
types and the types of fields.
-/

namespace CodeAtlas.Source

structure Language where
  name : String
  extensions : List String
  /-- Declarations of packages and imports. -/
  contextKinds : List String
  /-- Declarations that become containers. -/
  primaryKinds : List String
  /-- Declarations that become members. -/
  secondaryKinds : List String
  /-- The context kinds that declare a package. -/
  packageKinds : List String := []
  /-- The kinds that mark a container as an interface. -/
  interfaceKinds : List String := []
  /-- The fields in which the name of a declaration is looked for, in order. -/
  nameFields : List String := ["name"]
  returnTypeFields : List String := []
  imports : List Pattern
  packages : List Pattern := []
  heritage : List Pattern := []
  fieldTypes : List Pattern := []

namespace Language

/-- Whether nodes of a kind declare a package or imports. -/
def isContext (l : Language) (kind : String) : Bool := l.contextKinds.contains kind

/-- Whether nodes of a kind become containers. -/
def isPrimary (l : Language) (kind : String) : Bool := l.primaryKinds.contains kind

def isSecondary (l : Language) (kind : String) : Bool := l.secondaryKinds.contains kind

def stepTo (field kind : String) : Step := ⟨some field, some kind⟩

def stepIn (field : String) : Step := ⟨some field, none⟩

def stepKind (kind : String) : Step := ⟨none, some kind⟩

def single (kind : String) (steps : List Step) (role : Role) : Pattern :=
  ⟨kind, [⟨steps, role⟩]⟩

def go : Language where
  name := "go"
  extensions := ["go"]
  contextKinds := ["package_clause", "import_declaration"]
  primaryKinds := ["type_declaration"]
  secondaryKinds := ["function_declaration", "method_declaration", "method_elem", "method_spec"]
  packageKinds := ["package_clause"]
  interfaceKinds := ["interface_type"]
  returnTypeFields := ["result"]
  imports := [single "import_spec" [stepTo "path" "interpreted_string_literal"] .imported]
  packages := [single "package_clause" [stepKind "package_identifier"] .package]
  fieldTypes :=
    [single "field_declaration" [stepTo "type" "type_identifier"] .fieldType,
      single "field_declaration" [stepTo "type" "pointer_type", stepKind "type_identifier"]
        .fieldType]

def python : Language where
  name := "python"
  extensions := ["py"]
  contextKinds := ["import_statement", "import_from_statement"]
  primaryKinds := ["class_definition"]
  secondaryKinds := ["function_definition"]
  returnTypeFields := ["return_type"]
  imports :=
    [single "import_statement" [stepTo "name" "dotted_name"] .imported,
      single "import_statement"
        [stepTo "name" "aliased_import", stepTo "name" "dotted_name"] .imported,
      ⟨"import_from_statement",
        [⟨[stepTo "module_name" "dotted_name"], .module⟩,
          ⟨[stepTo "name" "dotted_name"], .imported⟩]⟩,
      ⟨"import_from_statement",
        [⟨[stepTo "module_name" "dotted_name"], .module⟩,
          ⟨[stepKind "wildcard_import"], .wildcard⟩]⟩]
  heritage :=
    [single "class_definition" [stepTo "superclasses" "argument_list", stepKind "identifier"]
        .base,
      single "class_definition" [stepTo "superclasses" "argument_list", stepKind "attribute"]
        .base]

def typescript : Language where
  name := "typescript"
  extensions := ["ts", "tsx"]
  contextKinds := ["import_statement"]
  primaryKinds := ["class_declaration", "abstract_class_declaration", "interface_declaration"]
  secondaryKinds :=
    ["method_definition", "function_declaration", "method_signature", "abstract_method_signature"]
  interfaceKinds := ["interface_declaration", "abstract_class_declaration"]
  returnTypeFields := ["return_type"]
  imports := [single "import_statement" [stepTo "source" "string"] .imported]
  heritage :=
    [single "extends_clause" [stepTo "value" "identifier"] .base,
      single "implements_clause" [stepKind "type_identifier"] .interface,
      single "extends_type_clause" [stepKind "type_identifier"] .base]
  fieldTypes :=
    [single "public_field_definition" [stepKind "type_annotation", stepKind "type_identifier"]
    .fieldType]

def javascript : Language where
  name := "javascript"
  extensions := ["js", "jsx"]
  contextKinds := ["import_statement"]
  primaryKinds := ["class_declaration"]
  secondaryKinds := ["method_definition", "function_declaration"]
  imports := [single "import_statement" [stepTo "source" "string"] .imported]
  heritage := [single "class_heritage" [stepKind "identifier"] .base]

def rust : Language where
  name := "rust"
  extensions := ["rs"]
  contextKinds := ["use_declaration"]
  primaryKinds := ["impl_item", "trait_item", "struct_item", "enum_item", "mod_item"]
  secondaryKinds := ["function_item", "function_signature_item"]
  interfaceKinds := ["trait_item"]
  nameFields := ["name", "type"]
  returnTypeFields := ["return_type"]
  imports := [single "use_declaration" [stepIn "argument"] .imported]
  heritage := [single "impl_item" [stepIn "trait"] .interface]
  fieldTypes :=
    [single "field_declaration" [stepTo "type" "type_identifier"] .fieldType,
      single "field_declaration"
        [stepTo "type" "generic_type", stepKind "type_arguments", stepKind "type_identifier"]
        .fieldType]

def all : List Language :=
  [go, python, typescript, javascript, rust]

def ofExtension? (extension : String) : Option Language :=
  all.find? fun l => l.extensions.contains extension

def ofName? (name : String) : Option Language :=
  all.find? fun l => l.name == name

end Language

end CodeAtlas.Source
