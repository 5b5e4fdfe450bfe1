import EvmFlow.Catalogue.Entry

/-!
# The catalogue of instructions

Every instruction of the protocol, by ascending opcode: opcode, mnemonic,
items consumed and produced, length of the immediate, kind, and the hardfork
that brought it.
-/

namespace EvmFlow.Catalogue

set_option maxRecDepth 2000 in
/-- The entries of the catalogue. -/
def entries : List Entry :=
  [⟨0x00, "STOP", 0, 0, 0, .terminal, .frontier⟩,
    ⟨0x01, "ADD", 2, 1, 0, .plain, .frontier⟩,
    ⟨0x02, "MUL", 2, 1, 0, .plain, .frontier⟩,
    ⟨0x03, "SUB", 2, 1, 0, .plain, .frontier⟩,
    ⟨0x04, "DIV", 2, 1, 0, .plain, .frontier⟩,
    ⟨0x05, "SDIV", 2, 1, 0, .plain, .frontier⟩,
    ⟨0x06, "MOD", 2, 1, 0, .plain, .frontier⟩,
    ⟨0x07, "SMOD", 2, 1, 0, .plain, .frontier⟩,
    ⟨0x08, "ADDMOD", 3, 1, 0, .plain, .frontier⟩,
    ⟨0x09, "MULMOD", 3, 1, 0, .plain, .frontier⟩,
    ⟨0x0a, "EXP", 2, 1, 0, .plain, .frontier⟩,
    ⟨0x0b, "SIGNEXTEND", 2, 1, 0, .plain, .frontier⟩,
    ⟨0x10, "LT", 2, 1, 0, .plain, .frontier⟩,
    ⟨0x11, "GT", 2, 1, 0, .plain, .frontier⟩,
    ⟨0x12, "SLT", 2, 1, 0, .plain, .frontier⟩,
    ⟨0x13, "SGT", 2, 1, 0, .plain, .frontier⟩,
    ⟨0x14, "EQ", 2, 1, 0, .plain, .frontier⟩,
    ⟨0x15, "ISZERO", 1, 1, 0, .plain, .frontier⟩,
    ⟨0x16, "AND", 2, 1, 0, .plain, .frontier⟩,
    ⟨0x17, "OR", 2, 1, 0, .plain, .frontier⟩,
    ⟨0x18, "XOR", 2, 1, 0, .plain, .frontier⟩,
    ⟨0x19, "NOT", 1, 1, 0, .plain, .frontier⟩,
    ⟨0x1a, "BYTE", 2, 1, 0, .plain, .frontier⟩,
    ⟨0x1b, "SHL", 2, 1, 0, .plain, .constantinople⟩,
    ⟨0x1c, "SHR", 2, 1, 0, .plain, .constantinople⟩,
    ⟨0x1d, "SAR", 2, 1, 0, .plain, .constantinople⟩,
    ⟨0x20, "KECCAK256", 2, 1, 0, .plain, .frontier⟩,
    ⟨0x30, "ADDRESS", 0, 1, 0, .plain, .frontier⟩,
    ⟨0x31, "BALANCE", 1, 1, 0, .plain, .frontier⟩,
    ⟨0x32, "ORIGIN", 0, 1, 0, .plain, .frontier⟩,
    ⟨0x33, "CALLER", 0, 1, 0, .plain, .frontier⟩,
    ⟨0x34, "CALLVALUE", 0, 1, 0, .plain, .frontier⟩,
    ⟨0x35, "CALLDATALOAD", 1, 1, 0, .plain, .frontier⟩,
    ⟨0x36, "CALLDATASIZE", 0, 1, 0, .plain, .frontier⟩,
    ⟨0x37, "CALLDATACOPY", 3, 0, 0, .plain, .frontier⟩,
    ⟨0x38, "CODESIZE", 0, 1, 0, .plain, .frontier⟩,
    ⟨0x39, "CODECOPY", 3, 0, 0, .plain, .frontier⟩,
    ⟨0x3a, "GASPRICE", 0, 1, 0, .plain, .frontier⟩,
    ⟨0x3b, "EXTCODESIZE", 1, 1, 0, .plain, .frontier⟩,
    ⟨0x3c, "EXTCODECOPY", 4, 0, 0, .plain, .frontier⟩,
    ⟨0x3d, "RETURNDATASIZE", 0, 1, 0, .plain, .byzantium⟩,
    ⟨0x3e, "RETURNDATACOPY", 3, 0, 0, .plain, .byzantium⟩,
    ⟨0x3f, "EXTCODEHASH", 1, 1, 0, .plain, .constantinople⟩,
    ⟨0x40, "BLOCKHASH", 1, 1, 0, .plain, .frontier⟩,
    ⟨0x41, "COINBASE", 0, 1, 0, .plain, .frontier⟩,
    ⟨0x42, "TIMESTAMP", 0, 1, 0, .plain, .frontier⟩,
    ⟨0x43, "NUMBER", 0, 1, 0, .plain, .frontier⟩,
    ⟨0x44, "PREVRANDAO", 0, 1, 0, .plain, .frontier⟩,
    ⟨0x45, "GASLIMIT", 0, 1, 0, .plain, .frontier⟩,
    ⟨0x46, "CHAINID", 0, 1, 0, .plain, .istanbul⟩,
    ⟨0x47, "SELFBALANCE", 0, 1, 0, .plain, .istanbul⟩,
    ⟨0x48, "BASEFEE", 0, 1, 0, .plain, .london⟩,
    ⟨0x49, "BLOBHASH", 1, 1, 0, .plain, .cancun⟩,
    ⟨0x4a, "BLOBBASEFEE", 0, 1, 0, .plain, .cancun⟩,
    ⟨0x50, "POP", 1, 0, 0, .pop, .frontier⟩,
    ⟨0x51, "MLOAD", 1, 1, 0, .plain, .frontier⟩,
    ⟨0x52, "MSTORE", 2, 0, 0, .plain, .frontier⟩,
    ⟨0x53, "MSTORE8", 2, 0, 0, .plain, .frontier⟩,
    ⟨0x54, "SLOAD", 1, 1, 0, .plain, .frontier⟩,
    ⟨0x55, "SSTORE", 2, 0, 0, .plain, .frontier⟩,
    ⟨0x56, "JUMP", 1, 0, 0, .jump, .frontier⟩,
    ⟨0x57, "JUMPI", 2, 0, 0, .jumpi, .frontier⟩,
    ⟨0x58, "PC", 0, 1, 0, .plain, .frontier⟩,
    ⟨0x59, "MSIZE", 0, 1, 0, .plain, .frontier⟩,
    ⟨0x5a, "GAS", 0, 1, 0, .plain, .frontier⟩,
    ⟨0x5b, "JUMPDEST", 0, 0, 0, .jumpdest, .frontier⟩,
    ⟨0x5c, "TLOAD", 1, 1, 0, .plain, .cancun⟩,
    ⟨0x5d, "TSTORE", 2, 0, 0, .plain, .cancun⟩,
    ⟨0x5e, "MCOPY", 3, 0, 0, .plain, .cancun⟩,
    ⟨0x5f, "PUSH0", 0, 1, 0, .push, .shanghai⟩,
    ⟨0x60, "PUSH1", 0, 1, 1, .push, .frontier⟩,
    ⟨0x61, "PUSH2", 0, 1, 2, .push, .frontier⟩,
    ⟨0x62, "PUSH3", 0, 1, 3, .push, .frontier⟩,
    ⟨0x63, "PUSH4", 0, 1, 4, .push, .frontier⟩,
    ⟨0x64, "PUSH5", 0, 1, 5, .push, .frontier⟩,
    ⟨0x65, "PUSH6", 0, 1, 6, .push, .frontier⟩,
    ⟨0x66, "PUSH7", 0, 1, 7, .push, .frontier⟩,
    ⟨0x67, "PUSH8", 0, 1, 8, .push, .frontier⟩,
    ⟨0x68, "PUSH9", 0, 1, 9, .push, .frontier⟩,
    ⟨0x69, "PUSH10", 0, 1, 10, .push, .frontier⟩,
    ⟨0x6a, "PUSH11", 0, 1, 11, .push, .frontier⟩,
    ⟨0x6b, "PUSH12", 0, 1, 12, .push, .frontier⟩,
    ⟨0x6c, "PUSH13", 0, 1, 13, .push, .frontier⟩,
    ⟨0x6d, "PUSH14", 0, 1, 14, .push, .frontier⟩,
    ⟨0x6e, "PUSH15", 0, 1, 15, .push, .frontier⟩,
    ⟨0x6f, "PUSH16", 0, 1, 16, .push, .frontier⟩,
    ⟨0x70, "PUSH17", 0, 1, 17, .push, .frontier⟩,
    ⟨0x71, "PUSH18", 0, 1, 18, .push, .frontier⟩,
    ⟨0x72, "PUSH19", 0, 1, 19, .push, .frontier⟩,
    ⟨0x73, "PUSH20", 0, 1, 20, .push, .frontier⟩,
    ⟨0x74, "PUSH21", 0, 1, 21, .push, .frontier⟩,
    ⟨0x75, "PUSH22", 0, 1, 22, .push, .frontier⟩,
    ⟨0x76, "PUSH23", 0, 1, 23, .push, .frontier⟩,
    ⟨0x77, "PUSH24", 0, 1, 24, .push, .frontier⟩,
    ⟨0x78, "PUSH25", 0, 1, 25, .push, .frontier⟩,
    ⟨0x79, "PUSH26", 0, 1, 26, .push, .frontier⟩,
    ⟨0x7a, "PUSH27", 0, 1, 27, .push, .frontier⟩,
    ⟨0x7b, "PUSH28", 0, 1, 28, .push, .frontier⟩,
    ⟨0x7c, "PUSH29", 0, 1, 29, .push, .frontier⟩,
    ⟨0x7d, "PUSH30", 0, 1, 30, .push, .frontier⟩,
    ⟨0x7e, "PUSH31", 0, 1, 31, .push, .frontier⟩,
    ⟨0x7f, "PUSH32", 0, 1, 32, .push, .frontier⟩,
    ⟨0x80, "DUP1", 1, 2, 0, .dup, .frontier⟩,
    ⟨0x81, "DUP2", 2, 3, 0, .dup, .frontier⟩,
    ⟨0x82, "DUP3", 3, 4, 0, .dup, .frontier⟩,
    ⟨0x83, "DUP4", 4, 5, 0, .dup, .frontier⟩,
    ⟨0x84, "DUP5", 5, 6, 0, .dup, .frontier⟩,
    ⟨0x85, "DUP6", 6, 7, 0, .dup, .frontier⟩,
    ⟨0x86, "DUP7", 7, 8, 0, .dup, .frontier⟩,
    ⟨0x87, "DUP8", 8, 9, 0, .dup, .frontier⟩,
    ⟨0x88, "DUP9", 9, 10, 0, .dup, .frontier⟩,
    ⟨0x89, "DUP10", 10, 11, 0, .dup, .frontier⟩,
    ⟨0x8a, "DUP11", 11, 12, 0, .dup, .frontier⟩,
    ⟨0x8b, "DUP12", 12, 13, 0, .dup, .frontier⟩,
    ⟨0x8c, "DUP13", 13, 14, 0, .dup, .frontier⟩,
    ⟨0x8d, "DUP14", 14, 15, 0, .dup, .frontier⟩,
    ⟨0x8e, "DUP15", 15, 16, 0, .dup, .frontier⟩,
    ⟨0x8f, "DUP16", 16, 17, 0, .dup, .frontier⟩,
    ⟨0x90, "SWAP1", 2, 2, 0, .swap, .frontier⟩,
    ⟨0x91, "SWAP2", 3, 3, 0, .swap, .frontier⟩,
    ⟨0x92, "SWAP3", 4, 4, 0, .swap, .frontier⟩,
    ⟨0x93, "SWAP4", 5, 5, 0, .swap, .frontier⟩,
    ⟨0x94, "SWAP5", 6, 6, 0, .swap, .frontier⟩,
    ⟨0x95, "SWAP6", 7, 7, 0, .swap, .frontier⟩,
    ⟨0x96, "SWAP7", 8, 8, 0, .swap, .frontier⟩,
    ⟨0x97, "SWAP8", 9, 9, 0, .swap, .frontier⟩,
    ⟨0x98, "SWAP9", 10, 10, 0, .swap, .frontier⟩,
    ⟨0x99, "SWAP10", 11, 11, 0, .swap, .frontier⟩,
    ⟨0x9a, "SWAP11", 12, 12, 0, .swap, .frontier⟩,
    ⟨0x9b, "SWAP12", 13, 13, 0, .swap, .frontier⟩,
    ⟨0x9c, "SWAP13", 14, 14, 0, .swap, .frontier⟩,
    ⟨0x9d, "SWAP14", 15, 15, 0, .swap, .frontier⟩,
    ⟨0x9e, "SWAP15", 16, 16, 0, .swap, .frontier⟩,
    ⟨0x9f, "SWAP16", 17, 17, 0, .swap, .frontier⟩,
    ⟨0xa0, "LOG0", 2, 0, 0, .plain, .frontier⟩,
    ⟨0xa1, "LOG1", 3, 0, 0, .plain, .frontier⟩,
    ⟨0xa2, "LOG2", 4, 0, 0, .plain, .frontier⟩,
    ⟨0xa3, "LOG3", 5, 0, 0, .plain, .frontier⟩,
    ⟨0xa4, "LOG4", 6, 0, 0, .plain, .frontier⟩,
    ⟨0xf0, "CREATE", 3, 1, 0, .plain, .frontier⟩,
    ⟨0xf1, "CALL", 7, 1, 0, .plain, .frontier⟩,
    ⟨0xf2, "CALLCODE", 7, 1, 0, .plain, .frontier⟩,
    ⟨0xf3, "RETURN", 2, 0, 0, .terminal, .frontier⟩,
    ⟨0xf4, "DELEGATECALL", 6, 1, 0, .plain, .homestead⟩,
    ⟨0xf5, "CREATE2", 4, 1, 0, .plain, .constantinople⟩,
    ⟨0xfa, "STATICCALL", 6, 1, 0, .plain, .byzantium⟩,
    ⟨0xfd, "REVERT", 2, 0, 0, .terminal, .byzantium⟩,
    ⟨0xff, "SELFDESTRUCT", 1, 0, 0, .terminal, .frontier⟩]

end EvmFlow.Catalogue
