import ShaderInterface.Link.Block
import ShaderInterface.Link.Uniform
import ShaderInterface.Serial.Basic

namespace ShaderInterface

instance : Serial UniformEntry where
  toValue u := .record
    [("name", toValue u.name), ("gl_type", toValue u.type), ("array_size", toValue u.arraySize),
      ("block_index", optionValue u.block), ("block_info", toValue u.info),
      ("vs_register_index", optionValue u.registers.vertex),
      ("ps_register_index", optionValue u.registers.fragment),
      ("register_element", toValue u.element), ("register_count", toValue u.registerCount)]
  ofValue? value := do
    let entries ← value.record?
    return ⟨← readField entries "name", ← readField entries "gl_type",
      ← readField entries "array_size", ← readOptional entries "block_index",
      ← readField entries "block_info",
      ⟨← readOptional entries "vs_register_index", ← readOptional entries "ps_register_index"⟩,
      ← readField entries "register_element", ← readField entries "register_count"⟩

instance : Serial BlockEntry where
  toValue b := .record
    [("name", toValue b.name), ("element_index", optionValue b.element),
      ("data_size", toValue b.size), ("member_uniform_indexes", toValue b.members),
      ("vs_register_index", optionValue b.registers.vertex),
      ("ps_register_index", optionValue b.registers.fragment)]
  ofValue? value := do
    let entries ← value.record?
    return ⟨← readField entries "name", ← readOptional entries "element_index",
      ← readField entries "data_size", ← readField entries "member_uniform_indexes",
      ⟨← readOptional entries "vs_register_index", ← readOptional entries "ps_register_index"⟩⟩

end ShaderInterface
