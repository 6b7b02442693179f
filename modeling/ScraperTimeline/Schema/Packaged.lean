/-!
The contracts that come with the library, as documents. The first applies to what authors write, the
second to normalized trees: there the steps are written out and each member has an index and an order.
-/
namespace ScraperTimeline.Schema.Packaged

/-- What authors may write. -/
def definedLines : List String := [
  "\x7b",
  "  \"$schema\": \"http://json-schema.org/draft-07/schema#\",",
  "  \"title\": \"defined defs\",",
  "  \"version\": \"1\",",
  "  \"type\": \"object\",",
  "  \"properties\": \x7b",
  "    \"locatorGroups\": \x7b \"type\": \"object\" \x7d,",
  "    \"taskGroups\": \x7b",
  "      \"type\": \"object\",",
  "      \"additionalProperties\": \x7b",
  "        \"type\": \"object\",",
  "        \"additionalProperties\": \x7b \"$ref\": \"#/definitions/task\" \x7d",
  "      \x7d",
  "    \x7d,",
  "    \"dataDefs\": \x7b",
  "      \"type\": \"object\",",
  "      \"propertyNames\": \x7b \"pattern\": \"^[A-Za-z0-9_-]+$\" \x7d,",
  "      \"additionalProperties\": \x7b \"$ref\": \"#/definitions/dataDef\" \x7d",
  "    \x7d,",
  "    \"steps\": \x7b",
  "      \"type\": \"object\",",
  "      \"additionalProperties\": \x7b \"$ref\": \"#/definitions/stepGroup\" \x7d",
  "    \x7d",
  "  \x7d,",
  "  \"required\": [\"dataDefs\"],",
  "  \"additionalProperties\": false,",
  "  \"definitions\": \x7b",
  "    \"task\": \x7b",
  "      \"type\": \"object\",",
  "      \"properties\": \x7b",
  "        \"dataDef\": \x7b \"type\": \"string\" \x7d,",
  "        \"steps\": \x7b",
  "          \"oneOf\": [",
  "            \x7b \"type\": \"string\" \x7d,",
  "            \x7b \"$ref\": \"#/definitions/stepGroup\" \x7d",
  "          ]",
  "        \x7d",
  "      \x7d,",
  "      \"required\": [\"dataDef\"]",
  "    \x7d,",
  "    \"stepGroup\": \x7b",
  "      \"type\": \"array\",",
  "      \"items\": \x7b",
  "        \"oneOf\": [",
  "          \x7b \"type\": \"string\" \x7d,",
  "          \x7b \"$ref\": \"#/definitions/step\" \x7d",
  "        ]",
  "      \x7d",
  "    \x7d,",
  "    \"step\": \x7b",
  "      \"type\": \"object\",",
  "      \"properties\": \x7b",
  "        \"name\": \x7b \"type\": \"string\" \x7d,",
  "        \"class\": \x7b \"type\": \"string\" \x7d,",
  "        \"previous\": \x7b \"type\": \"string\" \x7d,",
  "        \"next\": \x7b \"type\": \"string\" \x7d",
  "      \x7d,",
  "      \"required\": [\"name\", \"class\"]",
  "    \x7d,",
  "    \"dataDef\": \x7b",
  "      \"type\": \"object\",",
  "      \"properties\": \x7b",
  "        \"query\": \x7b \"type\": \"object\" \x7d,",
  "        \"axis\": \x7b",
  "          \"type\": \"object\",",
  "          \"properties\": \x7b",
  "            \"fact\": \x7b \"$ref\": \"#/definitions/axis\" \x7d,",
  "            \"col\": \x7b \"$ref\": \"#/definitions/axis\" \x7d,",
  "            \"row\": \x7b \"$ref\": \"#/definitions/axis\" \x7d",
  "          \x7d,",
  "          \"additionalProperties\": false",
  "        \x7d",
  "      \x7d,",
  "      \"required\": [\"axis\"]",
  "    \x7d,",
  "    \"axis\": \x7b",
  "      \"type\": \"object\",",
  "      \"properties\": \x7b",
  "        \"query\": \x7b",
  "          \"type\": \"object\",",
  "          \"additionalProperties\": \x7b \"type\": \"string\" \x7d",
  "        \x7d,",
  "        \"members\": \x7b",
  "          \"type\": \"array\",",
  "          \"items\": \x7b \"$ref\": \"#/definitions/member\" \x7d",
  "        \x7d",
  "      \x7d,",
  "      \"additionalProperties\": false",
  "    \x7d,",
  "    \"member\": \x7b",
  "      \"type\": \"object\",",
  "      \"properties\": \x7b",
  "        \"name\": \x7b \"type\": \"string\" \x7d,",
  "        \"value\": \x7b \"type\": [\"string\", \"number\"] \x7d,",
  "        \"match\": \x7b \"type\": \"string\" \x7d,",
  "        \"index\": \x7b \"type\": \"integer\", \"minimum\": 0 \x7d,",
  "        \"order\": \x7b \"type\": \"integer\" \x7d",
  "      \x7d,",
  "      \"required\": [\"name\"],",
  "      \"anyOf\": [",
  "        \x7b \"required\": [\"value\"] \x7d,",
  "        \x7b \"required\": [\"match\"] \x7d",
  "      ],",
  "      \"additionalProperties\": false",
  "    \x7d",
  "  \x7d",
  "\x7d"]

/-- What normalization makes of it. -/
def effectiveLines : List String := [
  "\x7b",
  "  \"$schema\": \"http://json-schema.org/draft-07/schema#\",",
  "  \"title\": \"effective defs\",",
  "  \"version\": \"1\",",
  "  \"type\": \"object\",",
  "  \"properties\": \x7b",
  "    \"locatorGroups\": \x7b",
  "      \"type\": \"object\"",
  "    \x7d,",
  "    \"taskGroups\": \x7b",
  "      \"type\": \"object\",",
  "      \"additionalProperties\": \x7b",
  "        \"type\": \"object\",",
  "        \"additionalProperties\": \x7b",
  "          \"$ref\": \"#/definitions/task\"",
  "        \x7d",
  "      \x7d",
  "    \x7d,",
  "    \"dataDefs\": \x7b",
  "      \"type\": \"object\",",
  "      \"propertyNames\": \x7b",
  "        \"pattern\": \"^[A-Za-z0-9_-]+$\"",
  "      \x7d,",
  "      \"additionalProperties\": \x7b",
  "        \"$ref\": \"#/definitions/dataDef\"",
  "      \x7d",
  "    \x7d,",
  "    \"steps\": \x7b",
  "      \"type\": \"object\",",
  "      \"additionalProperties\": \x7b",
  "        \"$ref\": \"#/definitions/stepGroup\"",
  "      \x7d",
  "    \x7d",
  "  \x7d,",
  "  \"required\": [",
  "    \"dataDefs\"",
  "  ],",
  "  \"additionalProperties\": false,",
  "  \"definitions\": \x7b",
  "    \"task\": \x7b",
  "      \"type\": \"object\",",
  "      \"properties\": \x7b",
  "        \"dataDef\": \x7b",
  "          \"type\": \"string\"",
  "        \x7d,",
  "        \"steps\": \x7b",
  "          \"$ref\": \"#/definitions/stepGroup\"",
  "        \x7d",
  "      \x7d,",
  "      \"required\": [",
  "        \"dataDef\",",
  "        \"steps\"",
  "      ]",
  "    \x7d,",
  "    \"stepGroup\": \x7b",
  "      \"type\": \"array\",",
  "      \"items\": \x7b",
  "        \"$ref\": \"#/definitions/step\"",
  "      \x7d",
  "    \x7d,",
  "    \"step\": \x7b",
  "      \"type\": \"object\",",
  "      \"properties\": \x7b",
  "        \"name\": \x7b",
  "          \"type\": \"string\"",
  "        \x7d,",
  "        \"class\": \x7b",
  "          \"type\": \"string\"",
  "        \x7d,",
  "        \"previous\": \x7b",
  "          \"type\": \"string\"",
  "        \x7d,",
  "        \"next\": \x7b",
  "          \"type\": \"string\"",
  "        \x7d",
  "      \x7d,",
  "      \"required\": [",
  "        \"name\",",
  "        \"class\"",
  "      ]",
  "    \x7d,",
  "    \"dataDef\": \x7b",
  "      \"type\": \"object\",",
  "      \"properties\": \x7b",
  "        \"query\": \x7b",
  "          \"type\": \"object\"",
  "        \x7d,",
  "        \"axis\": \x7b",
  "          \"type\": \"object\",",
  "          \"properties\": \x7b",
  "            \"fact\": \x7b",
  "              \"$ref\": \"#/definitions/axis\"",
  "            \x7d,",
  "            \"col\": \x7b",
  "              \"$ref\": \"#/definitions/axis\"",
  "            \x7d,",
  "            \"row\": \x7b",
  "              \"$ref\": \"#/definitions/axis\"",
  "            \x7d",
  "          \x7d,",
  "          \"additionalProperties\": false,",
  "          \"required\": [",
  "            \"fact\"",
  "          ]",
  "        \x7d",
  "      \x7d,",
  "      \"required\": [",
  "        \"axis\"",
  "      ]",
  "    \x7d,",
  "    \"axis\": \x7b",
  "      \"type\": \"object\",",
  "      \"properties\": \x7b",
  "        \"query\": \x7b",
  "          \"type\": \"object\",",
  "          \"additionalProperties\": \x7b",
  "            \"type\": \"string\"",
  "          \x7d",
  "        \x7d,",
  "        \"members\": \x7b",
  "          \"type\": \"array\",",
  "          \"items\": \x7b",
  "            \"$ref\": \"#/definitions/member\"",
  "          \x7d",
  "        \x7d",
  "      \x7d,",
  "      \"additionalProperties\": false",
  "    \x7d,",
  "    \"member\": \x7b",
  "      \"type\": \"object\",",
  "      \"properties\": \x7b",
  "        \"name\": \x7b",
  "          \"type\": \"string\"",
  "        \x7d,",
  "        \"value\": \x7b",
  "          \"type\": [",
  "            \"string\",",
  "            \"number\"",
  "          ]",
  "        \x7d,",
  "        \"match\": \x7b",
  "          \"type\": \"string\"",
  "        \x7d,",
  "        \"index\": \x7b",
  "          \"type\": \"integer\",",
  "          \"minimum\": 0",
  "        \x7d,",
  "        \"order\": \x7b",
  "          \"type\": \"integer\"",
  "        \x7d",
  "      \x7d,",
  "      \"required\": [",
  "        \"name\",",
  "        \"index\",",
  "        \"order\"",
  "      ],",
  "      \"anyOf\": [",
  "        \x7b",
  "          \"required\": [",
  "            \"value\"",
  "          ]",
  "        \x7d,",
  "        \x7b",
  "          \"required\": [",
  "            \"match\"",
  "          ]",
  "        \x7d",
  "      ],",
  "      \"additionalProperties\": false",
  "    \x7d",
  "  \x7d",
  "\x7d"]

/-- The contracts by name. -/
def documents : List (String × String) :=
  [("defined", text definedLines), ("effective", text effectiveLines)]
where
  text (lines : List String) : String := "\n".intercalate lines ++ "\n"

end ScraperTimeline.Schema.Packaged
