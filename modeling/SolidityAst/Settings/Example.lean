/-!
The settings file that is written for a new project.
-/
namespace SolidityAst.Settings

def exampleLines : List String :=
  ["# solast settings",
    "# 环境变量（SOLAST_*）优先于本文件，.env 会在启动时加载",
    "",
    "solc:",
    "  # 固定 solc 路径，留空则按 pragma 选择版本",
    "  path: \"\"",
    "  # 固定版本，如 \"0.8.26\"；留空则从 pragma solidity 推断",
    "  version: \"\"",
    "  # 找不到对应版本时调用 solc-select install",
    "  auto_install: false",
    "  # 只做语法解析（settings.stopAfter = \"parsing\"），不做名称解析和类型检查",
    "  stop_after_parsing: true",
    "  timeout: 60s",
    "",
    "output:",
    "  indent: \"  \"",
    "  suffix: _ast.json",
    "  extension: .sol",
    "",
    "batch:",
    "  concurrency: 4",
    "  extensions:",
    "    - .sol",
    "  # 默认导出目录下所有文件（包括依赖）。不带 / 的条目匹配任意一级目录名，带 / 的匹配相对路径前缀",
    "  # exclude:",
    "  #   - node_modules",
    "  #   - lib/forge-std",
    "  #   - lib/openzeppelin-contracts",
    "",
    "log:",
    "  file: false",
    "  dir: logs",
    "",
    "# 导出台账（可选），记录每个文件的 keccak256、输出路径和结果",
    "database:",
    "  enabled: false",
    "  host: 127.0.0.1",
    "  port: \"3306\"",
    "  user: root",
    "  password: \"\"",
    "  name: solast"]

def exampleFile : String := String.join (exampleLines.map (· ++ "\n"))

end SolidityAst.Settings
