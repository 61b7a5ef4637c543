import InfixAlgebra.Json.Basic

namespace InfixAlgebra

namespace Json

def quoted (spelling : List Char) : List Char :=
  '"' :: spelling ++ ['"']

mutual

def compactList : Json → List Char
  | null          => "null".toList
  | bool true     => "true".toList
  | bool false    => "false".toList
  | number s      => s
  | string s      => quoted s
  | array items   => '[' :: compactItems items ++ [']']
  | object fields => '{' :: compactFields fields ++ ['}']
termination_by structural v => v

def compactItems : List Json → List Char
  | []      => []
  | [v]     => v.compactList
  | v :: vs => v.compactList ++ ',' :: compactItems vs
termination_by structural vs => vs

def compactFields : List (List Char × Json) → List Char
  | []           => []
  | [(k, v)]     => quoted k ++ ':' :: v.compactList
  | (k, v) :: fs => quoted k ++ ':' :: v.compactList ++ ',' :: compactFields fs
termination_by structural fs => fs

end

def lineBreak (indent : Nat) : List Char :=
  '\n' :: List.replicate (2 * indent) ' '

mutual

def prettyList (indent : Nat) : Json → List Char
  | array (v :: vs)    =>
    '[' :: prettyItems (indent + 1) (v :: vs) ++ lineBreak indent ++ [']']
  | object (f :: fs)   =>
    '{' :: prettyFields (indent + 1) (f :: fs) ++ lineBreak indent ++ ['}']
  | array []           => ['[', ']']
  | object []          => ['{', '}']
  | null               => "null".toList
  | bool true          => "true".toList
  | bool false         => "false".toList
  | number s           => s
  | string s           => quoted s
termination_by structural v => v

def prettyItems (indent : Nat) : List Json → List Char
  | []      => []
  | [v]     => lineBreak indent ++ v.prettyList indent
  | v :: vs => lineBreak indent ++ v.prettyList indent ++ ',' :: prettyItems indent vs
termination_by structural vs => vs

def prettyFields (indent : Nat) : List (List Char × Json) → List Char
  | []           => []
  | [(k, v)]     => lineBreak indent ++ quoted k ++ ':' :: ' ' :: v.prettyList indent
  | (k, v) :: fs =>
    lineBreak indent ++ quoted k ++ ':' :: ' ' :: v.prettyList indent ++ ',' ::
      prettyFields indent fs
termination_by structural fs => fs

end

def compact (v : Json) : String :=
  String.ofList v.compactList

def pretty (v : Json) : String :=
  String.ofList (v.prettyList 0)

end Json

end InfixAlgebra
